import Adacc.Compiler.SymbolicComputation
import Mathlib.Data.List.Basic
import Mathlib.Logic.Function.Basic

/-!
# Short-circuiting

`Symbolizer::shortCircuitExpressionUses` rewrites every recorded computation into a diamond. Its
head checks whether all inputs are null, in which case it jumps over the calls; the calls get, for
every input that may be null, the PHI of the input and an expression made of the value; and after
the calls a PHI, with which all uses of the result are replaced, is null or the result.

## Code

The code of a basic block is a list of instructions and of computations that have not been
rewritten. A rewritten computation is a list of lines, in which `label` starts a new block. All its
jumps go forward, so splitting a block is inserting a branch and a label, and a run of the lines is
a fold that skips what has been jumped over. Values have the name of the instruction that computes
them. A PHI names its incoming edges by the branch that ends the incoming block: this is how
splitting a block keeps PHI nodes right.

The terminators of the program decide which block comes next. They are not changed, so a run is
given by the blocks that it enters.

## Correctness

`exec_diamond` runs a diamond from its first line to its last: it does what `evaluate` says, and
changes no operand from outside the diamond.
-/

namespace Adacc.ShortCircuiting

/-! ## Names -/

/-- The values that are expressions. The computations of a function are numbered. -/
inductive SymValue
  /-- any other instruction or argument -/
  | other (n : ℕ)
  /-- a call of a computation before the last one -/
  | call (computation index : ℕ)
  /-- `lastInstruction` -/
  | result (computation : ℕ)
  | newArgExpression (computation argIndex : ℕ)
  | argPHI (computation argIndex : ℕ)
  | finalExpression (computation : ℕ)
  deriving DecidableEq

inductive Operand
  | null
  | value (v : SymValue)
  deriving DecidableEq

/-- The conditions of branches. -/
inductive Check
  | nullCheck (computation argIndex : ℕ)
  /-- the conjunction of the checks up to this one -/
  | allConcrete (computation argIndex : ℕ)
  deriving DecidableEq

/-- The branches that end new blocks. -/
inductive Branch
  | head (computation : ℕ)
  | argCheckBlock (computation argIndex : ℕ)
  | argExpressionBlock (computation argIndex : ℕ)
  | slowPath (computation : ℕ)
  deriving DecidableEq

/-- The new blocks. -/
inductive Label
  | slowPath (computation : ℕ)
  | argExpressionBlock (computation argIndex : ℕ)
  /-- what is left of the slow path after the check of an argument -/
  | afterArgument (computation argIndex : ℕ)
  | tail (computation : ℕ)
  deriving DecidableEq

/-! ## Code -/

section Code

variable {F V : Type}

inductive LineArgument (V : Type)
  | expr (operand : Operand)
  | concrete (v : V)

/-- One line of code. -/
inductive Line (F V : Type)
  | icmpEqNull (check : Check) (operand : Operand)
  | and (check a b : Check)
  | condBr (branch : Branch) (cond : Check) (ifTrue ifFalse : Label)
  | br (branch : Branch) (target : Label)
  | label (l : Label)
  | phi (v : SymValue) (incoming : List (Operand × Branch))
  | createValueExpression (v : SymValue) (concreteValue : V)
  | call (v : SymValue) (function : F) (args : List (LineArgument V))
  | other (n : ℕ) (operands : List Operand)

/-- A piece of a basic block. -/
inductive Item (F V : Type)
  | line (i : Line F V)
  | recorded (c : ℕ) (computation : SymbolicComputation F V Operand)
  | rewritten (c : ℕ) (lines : List (Line F V))

/-- A basic block of the program. A PHI has an operand for every block that may come before. -/
structure Block (F V : Type) where
  phis : List (ℕ × List (ℕ × Operand))
  items : List (Item F V)

/-- The operands in a line. -/
def LineArgument.operand : LineArgument V → Option Operand
  | .expr operand => some operand
  | .concrete _ => none

def Line.operands : Line F V → List Operand
  | .icmpEqNull _ operand => [operand]
  | .phi _ incoming => incoming.map Prod.fst
  | .call _ _ args => args.filterMap LineArgument.operand
  | .other _ operands => operands
  | .and .. | .condBr .. | .br .. | .label _ | .createValueExpression .. => []

def Item.operands : Item F V → List Operand
  | .line i => i.operands
  | .recorded _ computation => computation.inputs.map Input.symbolicOperand
  | .rewritten _ lines => lines.flatMap Line.operands

def Block.operands (b : Block F V) : List Operand :=
  b.phis.flatMap (fun phi ↦ phi.2.map Prod.snd) ++ b.items.flatMap Item.operands

/-- The value has a use. -/
def Uses (code : List (Block F V)) (v : SymValue) : Prop :=
  .value v ∈ code.flatMap Block.operands

instance (code : List (Block F V)) (v : SymValue) : Decidable (Uses code v) :=
  inferInstanceAs (Decidable (_ ∈ _))

/-! ### Replacing operands -/

def LineArgument.map (f : Operand → Operand) : LineArgument V → LineArgument V
  | .expr operand => .expr (f operand)
  | .concrete v => .concrete v

def Line.map (f : Operand → Operand) : Line F V → Line F V
  | .icmpEqNull check operand => .icmpEqNull check (f operand)
  | .phi v incoming => .phi v (incoming.map fun edge ↦ (f edge.1, edge.2))
  | .call v function args => .call v function (args.map (LineArgument.map f))
  | .other n operands => .other n (operands.map f)
  | .and check a b => .and check a b
  | .condBr branch cond ifTrue ifFalse => .condBr branch cond ifTrue ifFalse
  | .br branch target => .br branch target
  | .label l => .label l
  | .createValueExpression v concreteValue => .createValueExpression v concreteValue

def Item.map (f : Operand → Operand) : Item F V → Item F V
  | .line i => .line (i.map f)
  | .recorded c computation => .recorded c (computation.map f)
  | .rewritten c lines => .rewritten c (lines.map (Line.map f))

def Block.map (f : Operand → Operand) (b : Block F V) : Block F V where
  phis := b.phis.map fun phi ↦ (phi.1, phi.2.map fun edge ↦ (edge.1, f edge.2))
  items := b.items.map (Item.map f)

/-- One operand under `replaceAllUsesWith`. -/
def Operand.replace (old : SymValue) (new : Operand) (operand : Operand) : Operand :=
  if operand = .value old then new else operand

/-- `Value::replaceAllUsesWith` -/
def replaceAllUsesWith (old : SymValue) (new : Operand) (code : List (Block F V)) :
    List (Block F V) :=
  code.map (Block.map (Operand.replace old new))

/-! ## Rewriting a computation -/

/-- The checks of the inputs. -/
def nullChecks (c : ℕ) (inputs : List (Input V Operand)) : List (Line F V) :=
  inputs.zipIdx.map fun input ↦ .icmpEqNull (.nullCheck c input.2) input.1.symbolicOperand

/-- The name of the conjunction of the checks up to `argIndex`. -/
def allConcrete (c argIndex : ℕ) : Check :=
  if argIndex = 0 then .nullCheck c 0 else .allConcrete c argIndex

/-- The conjunctions for so many inputs. -/
def conjunctions (c numInputs : ℕ) : List (Line F V) :=
  (List.range (numInputs - 1)).map fun i ↦
    .and (.allConcrete c (i + 1)) (allConcrete c i) (.nullCheck c (i + 1))

/-- `numUnknownConcreteness` -/
def numUnknownConcreteness (inputs : List (Input V Operand)) : ℕ :=
  inputs.countP fun input ↦ input.symbolicOperand ≠ .null

/-- The operand that takes the place of an input. -/
def finalArgExpression (c numUnknown argIndex : ℕ) (input : Input V Operand) : Operand :=
  if input.symbolicOperand = .null then .value (.newArgExpression c argIndex)
  else if numUnknown = 1 then input.symbolicOperand
  else .value (.argPHI c argIndex)

/-- The code for an input on the slow path. An input that is known to be null needs no check, and
neither does one that is the only one not known to be null. -/
def argumentLines (c numUnknown argIndex : ℕ) (input : Input V Operand) : List (Line F V) :=
  if input.symbolicOperand = .null then
    [.createValueExpression (.newArgExpression c argIndex) input.concreteValue]
  else if numUnknown = 1 then []
  else
    [.condBr (.argCheckBlock c argIndex) (.nullCheck c argIndex)
      (.argExpressionBlock c argIndex) (.afterArgument c argIndex),
    .label (.argExpressionBlock c argIndex),
    .createValueExpression (.newArgExpression c argIndex) input.concreteValue,
    .br (.argExpressionBlock c argIndex) (.afterArgument c argIndex),
    .label (.afterArgument c argIndex),
    .phi (.argPHI c argIndex)
      [(input.symbolicOperand, .argCheckBlock c argIndex),
        (.value (.newArgExpression c argIndex), .argExpressionBlock c argIndex)]]

/-- `Input::replaceOperand` for the inputs of a call, where `argIndex` is the number of inputs
before it. -/
def replaceOperands (c : ℕ) (new : ℕ → Operand) :
    ℕ → List (Argument V Operand) → List (LineArgument V)
  | _, [] => []
  | argIndex, .symbolic _ _ :: args =>
    .expr (new argIndex) :: replaceOperands c new (argIndex + 1) args
  | argIndex, .concrete v :: args => .concrete v :: replaceOperands c new argIndex args
  | argIndex, .result index :: args =>
    .expr (.value (.call c index)) :: replaceOperands c new argIndex args

/-- The calls of a computation before the last one, from the call with the given index on. -/
def callLines (c : ℕ) (new : ℕ → Operand) :
    ℕ → ℕ → List (Call F V Operand) → List (Line F V)
  | _, _, [] => []
  | index, argIndex, call :: calls =>
    .call (.call c index) call.function (replaceOperands c new argIndex call.args) ::
      callLines c new (index + 1) (argIndex + call.inputs.length) calls

/-- The operands that take the places of the inputs. -/
def newOperands (c : ℕ) (inputs : List (Input V Operand)) (argIndex : ℕ) : Operand :=
  (inputs[argIndex]?.map
    (finalArgExpression c (numUnknownConcreteness inputs) argIndex)).getD .null

/-- The slow path: code for the inputs, and then the calls. -/
def slowPath (c : ℕ) (computation : SymbolicComputation F V Operand) : List (Line F V) :=
  let inputs := computation.inputs
  let new := newOperands c inputs
  inputs.zipIdx.flatMap (fun input ↦
      argumentLines c (numUnknownConcreteness inputs) input.2 input.1) ++
    callLines c new 0 0 computation.init ++
    [.call (.result c) computation.last.function
      (replaceOperands c new (computation.init.flatMap Call.inputs).length computation.last.args)]

/-- The diamond without the last PHI. -/
def diamond (c : ℕ) (computation : SymbolicComputation F V Operand) : List (Line F V) :=
  let inputs := computation.inputs
  nullChecks c inputs ++ conjunctions c inputs.length ++
    [.condBr (.head c) (allConcrete c (inputs.length - 1)) (.tail c) (.slowPath c),
      .label (.slowPath c)] ++
    slowPath c computation ++
    [.br (.slowPath c) (.tail c), .label (.tail c)]

/-- The PHI at the start of the tail. -/
def finalPHI (c : ℕ) : Line F V :=
  .phi (.finalExpression c) [(.null, .head c), (.value (.result c), .slowPath c)]

def Item.shortCircuit (c : ℕ) : Item F V → Item F V
  | .recorded c' computation =>
    if c' = c then .rewritten c (diamond c computation) else .recorded c' computation
  | .line i => .line i
  | .rewritten c' lines => .rewritten c' lines

def Item.addFinalPHI (c : ℕ) : Item F V → Item F V
  | .rewritten c' lines =>
    if c' = c then .rewritten c (lines ++ [finalPHI c]) else .rewritten c' lines
  | .line i => .line i
  | .recorded c' computation => .recorded c' computation

/-- The body of the loop of `shortCircuitExpressionUses`. Replacing the uses of a value that has
none changes nothing. -/
def shortCircuitComputation (code : List (Block F V)) (c : ℕ) : List (Block F V) :=
  let code := code.map fun b ↦ { b with items := b.items.map (Item.shortCircuit c) }
  let used := Uses code (.result c)
  let code := replaceAllUsesWith (.result c) (.value (.finalExpression c)) code
  if used then code.map fun b ↦ { b with items := b.items.map (Item.addFinalPHI c) } else code

/-- `Symbolizer::shortCircuitExpressionUses`, with the computations in the order in which they are
in `expressionUses`. -/
def shortCircuitExpressionUses (expressionUses : List ℕ) (code : List (Block F V)) :
    List (Block F V) :=
  expressionUses.foldl shortCircuitComputation code

end Code

/-! ## Running code -/

section Exec

variable {F V C E : Type}

/-- The state of a run. -/
structure State (F C E : Type) where
  env : SymValue → Option E
  checks : Check → Bool
  /-- The branch that was taken last. -/
  cameFrom : Option Branch
  events : List (Event F C E)

def Operand.eval (env : SymValue → Option E) : Operand → Option E
  | .null => none
  | .value v => env v

variable (world : Environment F V C E)

def LineArgument.eval (s : State F C E) : LineArgument V → ArgValue C E
  | .expr operand => .expr (operand.eval s.env)
  | .concrete v => .concrete (world.value s.events v)

namespace State

def define (v : SymValue) (e : Option E) (s : State F C E) : State F C E :=
  { s with env := Function.update s.env v e }

def check (check : Check) (b : Bool) (s : State F C E) : State F C E :=
  { s with checks := Function.update s.checks check b }

def branch (branch : Branch) (s : State F C E) : State F C E := { s with cameFrom := some branch }

theorem env_define_self (s : State F C E) (v : SymValue) (e : Option E) :
    (s.define v e).env v = e :=
  Function.update_self ..

theorem env_define_of_ne (s : State F C E) {v v' : SymValue} (h : v' ≠ v) (e : Option E) :
    (s.define v e).env v' = s.env v' :=
  Function.update_of_ne h _ _

private theorem checks_check_self (s : State F C E) (c : Check) (b : Bool) :
    (s.check c b).checks c = b :=
  Function.update_self ..

private theorem checks_check_of_ne (s : State F C E) {c c' : Check} (h : c' ≠ c) (b : Bool) :
    (s.check c b).checks c' = s.checks c' :=
  Function.update_of_ne h _ _

end State

/-- One line: the label that is being jumped to, if any, and the state. Control does not fall
through to a label. -/
def Line.exec : Option Label × State F C E → Line F V → Option (Option Label × State F C E)
  | (some target, s), .label l => some (if l = target then none else some target, s)
  | (some target, s), _ => some (some target, s)
  | (none, s), .icmpEqNull check operand =>
    some (none, s.check check (operand.eval s.env).isNone)
  | (none, s), .and check a b => some (none, s.check check (s.checks a && s.checks b))
  | (none, s), .condBr branch cond ifTrue ifFalse =>
    some (some (if s.checks cond then ifTrue else ifFalse), s.branch branch)
  | (none, s), .br branch target => some (some target, s.branch branch)
  | (none, _), .label _ => none
  | (none, s), .phi v incoming =>
    (incoming.find? fun edge ↦ s.cameFrom = some edge.2).map fun edge ↦
      (none, s.define v (edge.1.eval s.env))
  | (none, s), .createValueExpression v concreteValue =>
    some (none, s.define v
      (world.createValueExpression concreteValue (world.value s.events concreteValue)))
  | (none, s), .call v function args =>
    let args := args.map (LineArgument.eval world s)
    some (none, { s.define v (world.call s.events function args) with
      events := s.events ++ [.call function args] })
  | (none, s), .other n operands =>
    let operands := operands.map (Operand.eval s.env)
    some (none, { s.define (.other n) (world.other s.events n operands) with
      events := s.events ++ [.other n operands] })

def execLines (lines : List (Line F V)) (s : Option Label × State F C E) :
    Option (Option Label × State F C E) :=
  lines.foldlM (Line.exec world) s

/-- Code that has not been rewritten cannot be run. -/
def Item.exec (s : Option Label × State F C E) : Item F V → Option (Option Label × State F C E)
  | .line i => i.exec world s
  | .recorded _ _ => none
  | .rewritten _ lines => execLines world lines s

/-- The PHI nodes of a block, which all see the values from before the jump. -/
def enterPhis (pred : ℕ) (phis : List (ℕ × List (ℕ × Operand))) (env : SymValue → Option E) :
    SymValue → Option E :=
  phis.foldl (fun env' phi ↦ Function.update env' (.other phi.1)
    (((phi.2.lookup pred).getD .null).eval env)) env

/-- Enter block `b` from `pred`, and run it to its end. -/
def Block.exec (code : List (Block F V)) (s : ℕ × State F C E) (b : ℕ) :
    Option (ℕ × State F C E) :=
  (code[b]?).bind fun block ↦
    let entered : State F C E := { s.2 with
      env := enterPhis s.1 block.phis s.2.env
      events := s.2.events ++ [.block b] }
    (block.items.foldlM (Item.exec world) (none, entered)).bind fun last ↦
      if last.1.isNone then some (b, last.2) else none

/-- Run the blocks of a path. -/
def exec (code : List (Block F V)) (path : List ℕ) (s : ℕ × State F C E) :
    Option (ℕ × State F C E) :=
  path.foldlM (Block.exec world code) s

end Exec

/-! ## Lines in a row -/

section Lines

variable {F V C E : Type} (world : Environment F V C E)

theorem execLines_append (lines lines' : List (Line F V)) (s : Option Label × State F C E) :
    execLines world (lines ++ lines') s
      = (execLines world lines s).bind (execLines world lines') :=
  List.foldlM_append

theorem execLines_cons (line : Line F V) (lines : List (Line F V))
    (s : Option Label × State F C E) :
    execLines world (line :: lines) s = (line.exec world s).bind (execLines world lines) :=
  List.foldlM_cons

/-- Lines that are jumped over. -/
theorem execLines_skip (lines : List (Line F V)) (target : Label)
    (h : ∀ line ∈ lines, line ≠ .label target) (s : State F C E) :
    execLines world lines (some target, s) = some (some target, s) := by
  induction lines with
  | nil => rfl
  | cons line lines ih =>
    rw [List.forall_mem_cons] at h
    have hline : line.exec world (some target, s) = some (some target, s) := by
      cases line with
      | label l =>
        have hne : l ≠ target := fun heq ↦ h.1 (heq ▸ rfl)
        rw [Line.exec, if_neg hne]
      | _ => rfl
    rw [execLines_cons, hline, Option.bind_some, ih h.2]

/-! ### The head -/

/-- Only checks have changed. -/
structure SameButChecks (s t : State F C E) : Prop where
  env_eq : t.env = s.env
  events_eq : t.events = s.events

private theorem exec_nullChecks (c : ℕ) (inputs : List (Input V Operand)) (i : ℕ)
    (s : State F C E) : ∃ t, execLines world ((inputs.zipIdx i).map fun input ↦
        .icmpEqNull (.nullCheck c input.2) input.1.symbolicOperand) (none, s) = some (none, t) ∧
      SameButChecks s t ∧
      (∀ j < i, t.checks (.nullCheck c j) = s.checks (.nullCheck c j)) ∧
      ∀ j input, inputs[j]? = some input →
        t.checks (.nullCheck c (i + j)) = (input.symbolicOperand.eval s.env).isNone := by
  induction inputs generalizing i s with
  | nil =>
    refine ⟨s, rfl, ⟨rfl, rfl⟩, fun _ _ ↦ rfl, fun j input h ↦ ?_⟩
    rw [List.getElem?_nil] at h
    cases h
  | cons input inputs ih =>
    let s₁ := s.check (.nullCheck c i) (input.symbolicOperand.eval s.env).isNone
    obtain ⟨t, ht, hsame, hbefore, hafter⟩ := ih (i + 1) s₁
    refine ⟨t, ?_, ⟨hsame.env_eq, hsame.events_eq⟩, fun j hj ↦ ?_, fun j input' h ↦ ?_⟩
    · rw [List.zipIdx_cons, List.map_cons, execLines_cons]
      exact ht
    · rw [hbefore j (by omega)]
      exact s.checks_check_of_ne (fun heq ↦ by injection heq; omega) _
    · rcases j with - | j
      · rw [List.getElem?_cons_zero, Option.some.injEq] at h
        subst h
        rw [Nat.add_zero, hbefore i (Nat.lt_succ_self i)]
        exact s.checks_check_self _ _
      · rw [List.getElem?_cons_succ] at h
        rw [Nat.add_comm j 1, ← Nat.add_assoc]
        exact hafter j input' h

private theorem exec_conjunctions (c n : ℕ) (s : State F C E) :
    ∃ t, execLines world ((List.range n).map fun i ↦
        (.and (.allConcrete c (i + 1)) (allConcrete c i) (.nullCheck c (i + 1)) : Line F V))
        (none, s) = some (none, t) ∧
      SameButChecks s t ∧
      (∀ j, t.checks (.nullCheck c j) = s.checks (.nullCheck c j)) ∧
      t.checks (allConcrete c n) = (List.range (n + 1)).all fun j ↦ s.checks (.nullCheck c j) := by
  induction n with
  | zero => exact ⟨s, rfl, ⟨rfl, rfl⟩, fun _ ↦ rfl, by simp [allConcrete]⟩
  | succ n ih =>
    obtain ⟨t, ht, hsame, hchecks, hall⟩ := ih
    refine ⟨t.check (.allConcrete c (n + 1))
      (t.checks (allConcrete c n) && t.checks (.nullCheck c (n + 1))), ?_,
      ⟨hsame.env_eq, hsame.events_eq⟩, fun j ↦ ?_, ?_⟩
    · rw [List.range_succ, List.map_append, execLines_append, ht]
      rfl
    · have hne : Check.nullCheck c j ≠ .allConcrete c (n + 1) := Check.noConfusion
      rw [State.checks_check_of_ne t hne, hchecks]
    · have hname : allConcrete c (n + 1) = .allConcrete c (n + 1) := if_neg (Nat.succ_ne_zero n)
      rw [hname, List.range_succ, List.all_append, ← hall, List.all_cons, List.all_nil,
        Bool.and_true, ← hchecks (n + 1)]
      exact t.checks_check_self _ _

/-! ### The arguments -/

/-- Only values of computation `c` that the slow path makes for the inputs from `i` on have changed.
-/
structure SameButArguments (c i : ℕ) (s t : State F C E) : Prop where
  events_eq : t.events = s.events
  checks_eq : t.checks = s.checks
  env_eq : ∀ v, (∀ j, i ≤ j → v ≠ .newArgExpression c j) → (∀ j, i ≤ j → v ≠ .argPHI c j) →
    t.env v = s.env v

/-- An operand that the slow path does not compute. -/
def Operand.IsOutside : Operand → Prop
  | .null | .value (.other _) | .value (.finalExpression _) => True
  | .value (.call _ _) | .value (.result _) | .value (.newArgExpression _ _)
  | .value (.argPHI _ _) => False

theorem SameButArguments.eval_eq {c i : ℕ} {s t : State F C E} (h : SameButArguments c i s t)
    {operand : Operand} (hoperand : operand.IsOutside) :
    operand.eval t.env = operand.eval s.env := by
  rcases operand with - | v
  · rfl
  · refine h.env_eq v (fun j _ heq ↦ ?_) fun j _ heq ↦ ?_
    · rw [heq] at hoperand
      exact hoperand
    · rw [heq] at hoperand
      exact hoperand

/-- The code for one input. If there is no check for it, then it is known which way it would go. -/
theorem exec_argumentLines {c numUnknown i : ℕ} {input : Input V Operand} {s : State F C E}
    (hcheck : s.checks (.nullCheck c i) = (input.symbolicOperand.eval s.env).isNone)
    (hone : numUnknown = 1 → input.symbolicOperand ≠ .null →
      input.symbolicOperand.eval s.env ≠ none) :
    ∃ t, execLines world (argumentLines c numUnknown i input) (none, s) = some (none, t) ∧
      t.events = s.events ∧ t.checks = s.checks ∧
      (∀ v, v ≠ .newArgExpression c i → v ≠ .argPHI c i → t.env v = s.env v) ∧
      (finalArgExpression c numUnknown i input).eval t.env
        = input.resolve world s.events (Operand.eval s.env) := by
  unfold argumentLines finalArgExpression
  by_cases hnull : input.symbolicOperand = .null
  · rw [if_pos hnull, if_pos hnull]
    refine ⟨_, rfl, rfl, rfl, fun v hv _ ↦ s.env_define_of_ne hv _, ?_⟩
    rw [Input.resolve, hnull]
    exact s.env_define_self _ _
  rw [if_neg hnull, if_neg hnull]
  by_cases hnum : numUnknown = 1
  · rw [if_pos hnum, if_pos hnum]
    refine ⟨s, rfl, rfl, rfl, fun _ _ _ ↦ rfl, ?_⟩
    obtain ⟨e, he⟩ := Option.ne_none_iff_exists'.mp (hone hnum hnull)
    rw [Input.resolve, he]
  rw [if_neg hnum, if_neg hnum]
  have hlabels : Label.argExpressionBlock c i ≠ .afterArgument c i := Label.noConfusion
  cases hoperand : input.symbolicOperand.eval s.env with
  | none =>
    -- through the block that makes an expression of the value
    rw [hoperand, Option.isNone_none] at hcheck
    let s₁ := ((s.branch (.argCheckBlock c i)).define (.newArgExpression c i)
      (world.createValueExpression input.concreteValue
        (world.value s.events input.concreteValue))).branch (.argExpressionBlock c i)
    refine ⟨s₁.define (.argPHI c i) (s₁.env (.newArgExpression c i)), ?_, rfl, rfl,
      fun v hv hv' ↦ ?_, ?_⟩
    · simp [execLines, Line.exec, hcheck, s₁, State.branch, State.define, Operand.eval]
    · exact (s₁.env_define_of_ne hv' _).trans (State.env_define_of_ne _ hv _)
    · rw [Input.resolve, hoperand]
      exact (s₁.env_define_self _ _).trans (State.env_define_self _ _ _)
  | some e =>
    rw [hoperand, Option.isNone_some] at hcheck
    let s₁ := s.branch (.argCheckBlock c i)
    refine ⟨s₁.define (.argPHI c i) (input.symbolicOperand.eval s.env), ?_, rfl, rfl,
      fun v _ hv' ↦ s₁.env_define_of_ne hv' _, ?_⟩
    · simp [execLines, Line.exec, hcheck, hlabels, s₁, State.branch, State.define]
    · rw [Input.resolve, hoperand]
      exact s₁.env_define_self _ _

/-- The operand for an input does not depend on what is computed for later inputs. -/
theorem finalArgExpression_eval_eq {c numUnknown i : ℕ} {input : Input V Operand}
    {s t : State F C E} (hinput : input.symbolicOperand.IsOutside)
    (h : SameButArguments c (i + 1) s t) :
    (finalArgExpression c numUnknown i input).eval t.env
      = (finalArgExpression c numUnknown i input).eval s.env := by
  unfold finalArgExpression
  split_ifs
  · refine h.env_eq _ (fun j hj heq ↦ ?_) fun j _ heq ↦ SymValue.noConfusion heq
    injection heq
    omega
  · exact h.eval_eq hinput
  · refine h.env_eq _ (fun j _ heq ↦ SymValue.noConfusion heq) fun j hj heq ↦ ?_
    injection heq
    omega

private theorem exec_allArgumentLines (c numUnknown : ℕ) {inputs : List (Input V Operand)} {i : ℕ}
    {s : State F C E} (houtside : ∀ input ∈ inputs, input.symbolicOperand.IsOutside)
    (hchecks : ∀ j input, inputs[j]? = some input →
      s.checks (.nullCheck c (i + j)) = (input.symbolicOperand.eval s.env).isNone)
    (hone : numUnknown = 1 → ∀ input ∈ inputs, input.symbolicOperand ≠ .null →
      input.symbolicOperand.eval s.env ≠ none) :
    ∃ t, execLines world ((inputs.zipIdx i).flatMap fun input ↦
        argumentLines c numUnknown input.2 input.1) (none, s) = some (none, t) ∧
      SameButArguments c i s t ∧
      ∀ j input, inputs[j]? = some input →
        (finalArgExpression c numUnknown (i + j) input).eval t.env
          = input.resolve world s.events (Operand.eval s.env) := by
  induction inputs generalizing i s with
  | nil =>
    refine ⟨s, rfl, ⟨rfl, rfl, fun _ _ _ ↦ rfl⟩, fun j input h ↦ ?_⟩
    rw [List.getElem?_nil] at h
    cases h
  | cons input inputs ih =>
    rw [List.forall_mem_cons] at houtside
    obtain ⟨s₁, hs₁, hevents, hkept, henv, hfinal⟩ := exec_argumentLines world (i := i)
      (hchecks 0 input rfl) fun hnum ↦ hone hnum input List.mem_cons_self
    have hsame : SameButArguments c i s s₁ :=
      ⟨hevents, hkept, fun v hv hv' ↦ henv v (hv i i.le_refl) (hv' i i.le_refl)⟩
    -- the inputs mean the same after this one
    have heval (input' : Input V Operand) (hmem : input' ∈ inputs) :
        input'.symbolicOperand.eval s₁.env = input'.symbolicOperand.eval s.env :=
      hsame.eval_eq (houtside.2 input' hmem)
    obtain ⟨t, ht, hlater, hfinals⟩ := ih (i := i + 1) (s := s₁) houtside.2
      (fun j input' h ↦ by
        rw [hkept, heval input' (List.mem_of_getElem? h), Nat.add_assoc, Nat.add_comm 1]
        exact hchecks (j + 1) input' h)
      (fun hnum input' hmem hne ↦ by
        rw [heval input' hmem]
        exact hone hnum input' (List.mem_cons_of_mem _ hmem) hne)
    refine ⟨t, ?_, ⟨hlater.events_eq.trans hevents, hlater.checks_eq.trans hkept,
      fun v hv hv' ↦ ?_⟩, fun j input' h ↦ ?_⟩
    · rw [List.zipIdx_cons, List.flatMap_cons, execLines_append, hs₁, Option.bind_some]
      exact ht
    · rw [hlater.env_eq v (fun j hj ↦ hv j (by omega)) fun j hj ↦ hv' j (by omega)]
      exact hsame.env_eq v hv hv'
    · rcases j with - | j
      · rw [List.getElem?_cons_zero, Option.some.injEq] at h
        subst h
        rw [Nat.add_zero, finalArgExpression_eval_eq houtside.1 hlater]
        exact hfinal
      · rw [List.getElem?_cons_succ] at h
        rw [Nat.add_comm j 1, ← Nat.add_assoc, hfinals j input' h, Input.resolve, Input.resolve,
          heval input' (List.mem_of_getElem? h), hevents]

/-! ### The calls -/

/-- What holds while the calls of computation `c` are made: `results` are those of the calls so far,
and the operands that take the places of the inputs have the right values. -/
structure Calling (c : ℕ) (start : List (Event F C E)) (env : Operand → Option E)
    (inputs : List (Input V Operand)) (s : State F C E) (results : List (Option E)) : Prop where
  call_eq : ∀ k < results.length, s.env (.call c k) = results.getD k none
  new_eq : ∀ j input, inputs[j]? = some input →
    (newOperands c inputs j).eval s.env = input.resolve world start env

/-- An operand that a call of computation `c` does not change. -/
theorem newOperands_ne_call {c j : ℕ} {inputs : List (Input V Operand)}
    (houtside : ∀ input ∈ inputs, input.symbolicOperand.IsOutside) {v : SymValue}
    (hv : newOperands c inputs j = .value v) (k : ℕ) : v ≠ .call c k ∧ v ≠ .result c := by
  unfold newOperands at hv
  cases hinput : inputs[j]? with
  | none =>
    rw [hinput] at hv
    cases hv
  | some input =>
    have hin := houtside input (List.mem_of_getElem? hinput)
    rw [hinput, Option.map_some, Option.getD_some, finalArgExpression] at hv
    split_ifs at hv
    · obtain rfl := Operand.value.inj hv
      exact ⟨SymValue.noConfusion, SymValue.noConfusion⟩
    · rw [hv] at hin
      exact ⟨fun heq ↦ (heq ▸ hin : Operand.IsOutside (.value (.call c k))),
        fun heq ↦ (heq ▸ hin : Operand.IsOutside (.value (.result c)))⟩
    · obtain rfl := Operand.value.inj hv
      exact ⟨SymValue.noConfusion, SymValue.noConfusion⟩

private theorem replaceOperands_eval {c : ℕ} (argIndex : ℕ) {start : List (Event F C E)}
    {env : Operand → Option E} {inputs : List (Input V Operand)} {s : State F C E}
    {results : List (Option E)} (h : Calling world c start env inputs s results)
    (args : List (Argument V Operand))
    (hinputs : ∀ j input, (args.filterMap Argument.input)[j]? = some input →
      inputs[argIndex + j]? = some input)
    (hresults : ∀ index, .result index ∈ args → index < results.length) :
    (replaceOperands c (newOperands c inputs) argIndex args).map (LineArgument.eval world s)
      = args.map (Argument.eval world start s.events env results) := by
  induction args generalizing argIndex with
  | nil => rfl
  | cons arg args ih =>
    have hlater (index : ℕ) (hmem : .result index ∈ args) : index < results.length :=
      hresults index (List.mem_cons_of_mem _ hmem)
    cases arg with
    | symbolic concreteValue symbolicOperand =>
      rw [replaceOperands, List.map_cons, List.map_cons, ih _ _ hlater, LineArgument.eval,
        Argument.eval, h.new_eq argIndex _ (hinputs 0 _ rfl)]
      intro j input hj
      rw [Nat.add_assoc, Nat.add_comm 1]
      exact hinputs (j + 1) input hj
    | concrete v =>
      rw [replaceOperands, List.map_cons, List.map_cons, ih _ hinputs hlater]
      rfl
    | result index =>
      rw [replaceOperands, List.map_cons, List.map_cons, ih _ hinputs hlater, LineArgument.eval,
        Argument.eval, Operand.eval, h.call_eq index (hresults index List.mem_cons_self)]

/-- A call before the last one. -/
theorem Calling.step {c : ℕ} {start : List (Event F C E)} {env : Operand → Option E}
    {inputs : List (Input V Operand)} {s : State F C E} {results : List (Option E)}
    (houtside : ∀ input ∈ inputs, input.symbolicOperand.IsOutside)
    (h : Calling world c start env inputs s results) (e : Option E) (events : List (Event F C E)) :
    Calling world c start env inputs { s.define (.call c results.length) e with events }
      (results ++ [e]) where
  call_eq k hk := by
    rw [List.length_append, List.length_singleton] at hk
    by_cases heq : k = results.length
    · subst heq
      rw [List.getD_append_right _ _ _ _ (Nat.le_refl _), Nat.sub_self]
      exact s.env_define_self _ _
    · have hlt : k < results.length := by omega
      have hne : SymValue.call c k ≠ .call c results.length := fun heq' ↦ heq (by injection heq')
      rw [List.getD_append _ _ _ _ hlt, ← h.call_eq k hlt]
      exact s.env_define_of_ne hne _
  new_eq j input hj := by
    rw [← h.new_eq j input hj]
    cases hv : newOperands c inputs j with
    | null => rfl
    | value v => exact s.env_define_of_ne (newOperands_ne_call houtside hv _).1 _

private theorem exec_callLines {c : ℕ} (argIndex : ℕ) {start : List (Event F C E)}
    {env : Operand → Option E} {inputs : List (Input V Operand)} (calls : List (Call F V Operand))
    {s : State F C E} {results : List (Option E)} (h : Calling world c start env inputs s results)
    (houtside : ∀ input ∈ inputs, input.symbolicOperand.IsOutside)
    (hinputs : ∀ j input, (calls.flatMap Call.inputs)[j]? = some input →
      inputs[argIndex + j]? = some input)
    (hresults : ∀ (k : ℕ) (call : Call F V Operand), calls[k]? = some call →
      ∀ index, .result index ∈ call.args → index < results.length + k) :
    ∃ t, execLines world (callLines c (newOperands c inputs) results.length argIndex calls)
        (none, s) = some (none, t) ∧
      t.events = (calls.foldl (Call.eval world start env) (s.events, results)).1 ∧
      Calling world c start env inputs t
        (calls.foldl (Call.eval world start env) (s.events, results)).2 ∧
      ∀ v, (∀ k, v ≠ .call c k) → t.env v = s.env v := by
  induction calls generalizing argIndex s results with
  | nil => exact ⟨s, rfl, rfl, h, fun _ _ ↦ rfl⟩
  | cons call calls ih =>
    have hargs := replaceOperands_eval world argIndex h call.args
      (fun j input hj ↦ hinputs j input (by
        rw [List.flatMap_cons, List.getElem?_append_left]
        · exact hj
        · exact (List.getElem?_eq_some_iff.mp hj).1))
      fun index hmem ↦ hresults 0 call rfl index hmem
    let e := world.call s.events call.function
      (call.args.map (Argument.eval world start s.events env results))
    let events := s.events ++ [Event.call call.function
      (call.args.map (Argument.eval world start s.events env results))]
    obtain ⟨t, ht, hevents, hcalling, henv⟩ := ih (argIndex + call.inputs.length)
      (h.step world houtside e events)
      (fun j input hj ↦ by
        rw [Nat.add_assoc]
        refine hinputs _ input ?_
        rw [List.flatMap_cons, List.getElem?_append_right (Nat.le_add_right _ _),
          Nat.add_sub_cancel_left]
        exact hj)
      (fun k call' hk index hmem ↦ by
        rw [List.length_append, List.length_singleton, Nat.add_assoc, Nat.add_comm 1]
        exact hresults (k + 1) call' hk index hmem)
    rw [List.length_append, List.length_singleton] at ht
    refine ⟨t, ?_, hevents, hcalling, fun v hv ↦ ?_⟩
    · rw [callLines, execLines_cons, Line.exec, hargs, Option.bind_some]
      exact ht
    · rw [henv v hv]
      exact s.env_define_of_ne (hv _) _

/-! ### The diamond -/

/-- If only one input is not known to be null, and not all are null, then it is the one that is not.
-/
theorem eval_ne_none_of_numUnknown {inputs : List (Input V Operand)} {env : SymValue → Option E}
    (hone : numUnknownConcreteness inputs = 1)
    (hnot : ¬ ∀ input ∈ inputs, (input.symbolicOperand.eval env).isNone) {input : Input V Operand}
    (hinput : input ∈ inputs) (hne : input.symbolicOperand ≠ .null) :
    input.symbolicOperand.eval env ≠ none := by
  obtain ⟨input', hinput', hsome⟩ : ∃ input' ∈ inputs, input'.symbolicOperand.eval env ≠ none := by
    by_contra hall
    refine hnot fun input' hinput' ↦ Option.isNone_iff_eq_none.mpr ?_
    by_contra hsome
    exact hall ⟨input', hinput', hsome⟩
  have hne' : input'.symbolicOperand ≠ .null := fun hnull ↦ hsome (by rw [hnull]; rfl)
  rw [numUnknownConcreteness, List.countP_eq_length_filter, List.length_eq_one_iff] at hone
  obtain ⟨unknown, hunknown⟩ := hone
  have honly (i : Input V Operand) (hi : i ∈ inputs) (hi' : i.symbolicOperand ≠ .null) :
      i = unknown := by
    have hmem : i ∈ inputs.filter fun input ↦ input.symbolicOperand ≠ .null :=
      List.mem_filter.mpr ⟨hi, decide_eq_true hi'⟩
    rw [hunknown] at hmem
    exact List.mem_singleton.mp hmem
  rw [honly input hinput hne, ← honly input' hinput' hne']
  exact hsome

private theorem exec_slowPath {c : ℕ} {computation : SymbolicComputation F V Operand}
    (hrecorded : computation.Recorded)
    (houtside : ∀ input ∈ computation.inputs, input.symbolicOperand.IsOutside) {s : State F C E}
    (hchecks : ∀ j input, computation.inputs[j]? = some input →
      s.checks (.nullCheck c j) = (input.symbolicOperand.eval s.env).isNone)
    (hnot : ¬ computation.AllNull (Operand.eval s.env)) :
    ∃ t, execLines world (slowPath c computation) (none, s) = some (none, t) ∧
      t.events = (computation.evaluate world s.events (Operand.eval s.env)).1 ∧
      t.env (.result c) = (computation.evaluate world s.events (Operand.eval s.env)).2 ∧
      ∀ operand : Operand, operand.IsOutside → operand.eval t.env = operand.eval s.env := by
  obtain ⟨s₁, hs₁, hsame, hnew⟩ := exec_allArgumentLines world c
    (numUnknownConcreteness computation.inputs) (i := 0) houtside
    (fun j input hj ↦ by rw [Nat.zero_add]; exact hchecks j input hj)
    fun hone input hinput hne ↦ eval_ne_none_of_numUnknown hone hnot hinput hne
  have hstart : Calling world c s.events (Operand.eval s.env) computation.inputs s₁ [] :=
    ⟨fun k hk ↦ absurd hk (Nat.not_lt_zero k), fun j input hj ↦ by
      rw [newOperands, hj, Option.map_some, Option.getD_some, ← hnew j input hj, Nat.zero_add]⟩
  have hinputs := computation.inputs_eq
  obtain ⟨s₂, hs₂, hevents, hcalling, henv⟩ := exec_callLines world 0 computation.init
    hstart houtside
    (fun j input hj ↦ by
      rw [Nat.zero_add, hinputs, List.getElem?_append_left (List.getElem?_eq_some_iff.mp hj).1]
      exact hj)
    fun k call hk index hmem ↦ by
      rw [List.length_nil, Nat.zero_add]
      exact hrecorded.result_lt_init hk hmem
  rw [List.length_nil] at hs₂
  rw [hsame.events_eq] at hevents hcalling
  have hlength := length_foldl_eval world s.events (Operand.eval s.env) computation.init
    (s.events, [])
  rw [List.length_nil, Nat.zero_add] at hlength
  have hargs := replaceOperands_eval world (computation.init.flatMap Call.inputs).length hcalling
    computation.last.args
    (fun j input hj ↦ by
      rw [hinputs, List.getElem?_append_right (Nat.le_add_right _ _), Nat.add_sub_cancel_left]
      exact hj)
    fun index hmem ↦ by
      rw [hlength]
      exact hrecorded.result_lt_last hmem
  set args := (replaceOperands c (newOperands c computation.inputs)
    (computation.init.flatMap Call.inputs).length computation.last.args).map
      (LineArgument.eval world s₂)
  have heval : computation.evaluate world s.events (Operand.eval s.env)
      = (s₂.events ++ [.call computation.last.function args],
        world.call s₂.events computation.last.function args) := by
    rw [computation.evaluate_of_not_allNull world hnot, ← hevents, ← hargs]
  rw [heval]
  refine ⟨{ s₂.define (.result c) (world.call s₂.events computation.last.function args) with
    events := s₂.events ++ [.call computation.last.function args] }, ?_, rfl,
    s₂.env_define_self _ _, fun operand hoperand ↦ ?_⟩
  · rw [slowPath, execLines_append, execLines_append, hs₁, Option.bind_some, hs₂]
    rfl
  · rw [← hsame.eval_eq hoperand]
    rcases operand with - | v
    · rfl
    · refine (s₂.env_define_of_ne (fun heq ↦ ?_) _).trans (henv v fun k heq ↦ ?_)
      · rw [heq] at hoperand
        exact hoperand
      · rw [heq] at hoperand
        exact hoperand

/-- The slow path has no label of the tail. -/
theorem ne_label_tail_of_mem_slowPath {c : ℕ} {computation : SymbolicComputation F V Operand}
    {line : Line F V} (h : line ∈ slowPath c computation) : line ≠ .label (.tail c) := by
  have hcalls (new : ℕ → Operand) (index argIndex : ℕ) (calls : List (Call F V Operand))
      (hline : line ∈ callLines c new index argIndex calls) : line ≠ .label (.tail c) := by
    induction calls generalizing index argIndex with
    | nil => exact absurd hline List.not_mem_nil
    | cons call calls ih =>
      rw [callLines, List.mem_cons] at hline
      rcases hline with rfl | hline
      · exact nofun
      · exact ih _ _ hline
  rw [slowPath, List.mem_append, List.mem_append, List.mem_flatMap, List.mem_singleton] at h
  rcases h with (⟨input, -, hline⟩ | hline) | rfl
  · unfold argumentLines at hline
    split_ifs at hline
    all_goals
      rintro rfl
      simp at hline
  · exact hcalls _ _ _ _ hline
  · exact nofun

private theorem exec_head {c : ℕ} {computation : SymbolicComputation F V Operand}
    (hrecorded : computation.Recorded) (s : State F C E) :
    ∃ t, execLines world (nullChecks c computation.inputs ++
        conjunctions c computation.inputs.length) (none, s) = some (none, t) ∧
      SameButChecks s t ∧
      (∀ j input, computation.inputs[j]? = some input →
        t.checks (.nullCheck c j) = (input.symbolicOperand.eval s.env).isNone) ∧
      (t.checks (allConcrete c (computation.inputs.length - 1)) = true ↔
        computation.AllNull (Operand.eval s.env)) := by
  obtain ⟨s₁, hs₁, hsame₁, -, hnull⟩ := exec_nullChecks world c computation.inputs 0 s
  obtain ⟨t, ht, hsame, hkept, hall⟩ := exec_conjunctions world c
    (computation.inputs.length - 1) s₁ (V := V)
  have hchecks (j : ℕ) (input : Input V Operand) (hj : computation.inputs[j]? = some input) :
      t.checks (.nullCheck c j) = (input.symbolicOperand.eval s.env).isNone := by
    rw [hkept j, ← hnull j input hj, Nat.zero_add]
  refine ⟨t, ?_, ⟨hsame.env_eq.trans hsame₁.env_eq, hsame.events_eq.trans hsame₁.events_eq⟩,
    hchecks, ?_⟩
  · rw [execLines_append, nullChecks, hs₁, Option.bind_some]
    exact ht
  · have hlength : computation.inputs.length - 1 + 1 = computation.inputs.length :=
      Nat.sub_add_cancel (List.length_pos_iff.mpr hrecorded.inputs_ne_nil)
    rw [hall, hlength, List.all_eq_true]
    constructor
    · intro h input hinput
      obtain ⟨j, hj⟩ := List.getElem?_of_mem hinput
      rw [← hchecks j input hj, hkept]
      exact h j (List.mem_range.mpr (List.getElem?_eq_some_iff.mp hj).1)
    · intro h j hj
      have hget := List.getElem?_eq_getElem (List.mem_range.mp hj)
      rw [← hkept, hchecks j _ hget]
      exact h _ (List.getElem_mem _)

/-- The last PHI after the fast path. -/
theorem exec_finalPHI_head {c : ℕ} {s : State F C E} (h : s.cameFrom = some (.head c)) :
    (finalPHI c : Line F V).exec world (none, s)
      = some (none, s.define (.finalExpression c) none) := by
  simp [finalPHI, Line.exec, h, Operand.eval]

/-- The last PHI after the slow path. -/
theorem exec_finalPHI_slowPath {c : ℕ} {s : State F C E} (h : s.cameFrom = some (.slowPath c)) :
    (finalPHI c : Line F V).exec world (none, s)
      = some (none, s.define (.finalExpression c) (s.env (.result c))) := by
  simp [finalPHI, Line.exec, h, Operand.eval]

/-- A whole diamond, up to the start of its tail, and the PHI there. -/
theorem exec_diamond {c : ℕ} {computation : SymbolicComputation F V Operand}
    (hrecorded : computation.Recorded)
    (houtside : ∀ input ∈ computation.inputs, input.symbolicOperand.IsOutside) (s : State F C E) :
    ∃ t, execLines world (diamond c computation) (none, s) = some (none, t) ∧
      t.events = (computation.evaluate world s.events (Operand.eval s.env)).1 ∧
      ((finalPHI c).exec world (none, t) = some (none,
        t.define (.finalExpression c)
          (computation.evaluate world s.events (Operand.eval s.env)).2)) ∧
      ∀ operand : Operand, operand.IsOutside → operand.eval t.env = operand.eval s.env := by
  obtain ⟨s₁, hs₁, hsame, hchecks, hcond⟩ := exec_head world (c := c) hrecorded s
  rw [diamond, List.append_assoc, List.append_assoc, execLines_append, hs₁, Option.bind_some,
    execLines_append]
  by_cases hnull : computation.AllNull (Operand.eval s.env)
  · -- the fast path jumps over everything
    have hskip := execLines_skip world (slowPath c computation) (.tail c)
      (fun line hline ↦ ne_label_tail_of_mem_slowPath hline) (s₁.branch (.head c))
    have hbranch : execLines world [.condBr (.head c)
        (allConcrete c (computation.inputs.length - 1)) (.tail c) (.slowPath c),
        .label (.slowPath c)] (none, s₁) = some (some (.tail c), s₁.branch (.head c)) := by
      simp [execLines, Line.exec, hcond.mpr hnull]
    refine ⟨s₁.branch (.head c), ?_, ?_, ?_, fun operand _ ↦ ?_⟩
    · rw [hbranch, Option.bind_some, execLines_append, hskip, Option.bind_some]
      simp [execLines, Line.exec]
    · rw [SymbolicComputation.evaluate, if_pos hnull]
      exact hsame.events_eq
    · rw [SymbolicComputation.evaluate, if_pos hnull]
      exact exec_finalPHI_head world rfl
    · exact congrArg operand.eval hsame.env_eq
  · have hbranch : execLines world [.condBr (.head c)
        (allConcrete c (computation.inputs.length - 1)) (.tail c) (.slowPath c),
        .label (.slowPath c)] (none, s₁) = some (none, s₁.branch (.head c)) := by
      simp [execLines, Line.exec, mt hcond.mp hnull]
    obtain ⟨t, ht, hevents, hresult, hkept⟩ := exec_slowPath world hrecorded houtside
      (s := s₁.branch (.head c)) (fun j input hj ↦ by
        rw [State.branch, hsame.env_eq]
        exact hchecks j input hj) (by rw [State.branch, hsame.env_eq]; exact hnull)
    have hstart : (s₁.branch (.head c)).events = s.events := hsame.events_eq
    have henv : (s₁.branch (.head c)).env = s.env := hsame.env_eq
    rw [hstart, henv] at hevents hresult
    rw [henv] at hkept
    refine ⟨t.branch (.slowPath c), ?_, hevents, ?_, hkept⟩
    · rw [hbranch, Option.bind_some, execLines_append, ht, Option.bind_some]
      simp [execLines, Line.exec]
    · rw [exec_finalPHI_slowPath world rfl, ← hresult]
      rfl

end Lines

end Adacc.ShortCircuiting
