import Mathlib.Data.List.GetD

/-!
# Symbolic computations

What the pass inserts to compute the expression of a value is a sequence of calls of the runtime
library (`Symbolizer::SymbolicComputation`). Some arguments of the calls are the expressions of
values of the program, which are null where the value is concrete; the computation records them as
its inputs, together with the values. Other arguments are values of the program as they are, and
results of earlier calls of the computation.

`evaluate` is what a computation is for: unless all inputs are null, the calls are made in order,
with an expression made of the value in the place of every input that is null, and the result is
what the last call returns. Otherwise nothing is called, and the result is null.

Expressions in code are of type `O`, values of the program of type `V`, functions of the runtime
library of type `F`. At run time a value is of type `C` and an expression of type `E`, with `none`
for null. The runtime library is arbitrary: what it returns may depend on all that has happened.
-/

namespace Adacc.ShortCircuiting

/-! ## Computations -/

/-- An argument of a call. -/
inductive Argument (V O : Type)
  /-- the expression of a value -/
  | symbolic (concreteValue : V) (symbolicOperand : O)
  /-- a value -/
  | concrete (v : V)
  /-- the result of an earlier call of the computation -/
  | result (index : ℕ)

/-- A call of a function of the runtime library. -/
structure Call (F V O : Type) where
  function : F
  args : List (Argument V O)

/-- `Symbolizer::Input`. The call and the index of the argument say where `symbolicOperand` is. -/
structure Input (V O : Type) where
  concreteValue : V
  symbolicOperand : O

/-- `Symbolizer::SymbolicComputation`: the calls up to `lastInstruction`, and that call. -/
structure SymbolicComputation (F V O : Type) where
  init : List (Call F V O)
  last : Call F V O

section Computations

variable {F V O P : Type}

def Argument.input : Argument V O → Option (Input V O)
  | .symbolic concreteValue symbolicOperand => some ⟨concreteValue, symbolicOperand⟩
  | .concrete _ | .result _ => none

def Call.inputs (call : Call F V O) : List (Input V O) := call.args.filterMap Argument.input

namespace SymbolicComputation

def calls (c : SymbolicComputation F V O) : List (Call F V O) := c.init ++ [c.last]

/-- `SymbolicComputation::inputs` -/
def inputs (c : SymbolicComputation F V O) : List (Input V O) := c.calls.flatMap Call.inputs

theorem inputs_eq (c : SymbolicComputation F V O) :
    c.inputs = c.init.flatMap Call.inputs ++ c.last.inputs := by
  rw [inputs, calls, List.flatMap_append, List.flatMap_singleton]

/-- `SymbolicComputation::merge`. A computation that has no call yet is `none`. -/
def merge (c : Option (SymbolicComputation F V O)) (other : SymbolicComputation F V O) :
    SymbolicComputation F V O :=
  match c with
  | none => other
  | some c => ⟨c.calls ++ other.init, other.last⟩

end SymbolicComputation

/-- What the pass makes sure of when it records a computation: it has an input, and a call only
refers to results of calls before it. -/
structure SymbolicComputation.Recorded (c : SymbolicComputation F V O) : Prop where
  inputs_ne_nil : c.inputs ≠ []
  result_lt : ∀ (k : ℕ) (call : Call F V O), c.calls[k]? = some call →
    ∀ index, .result index ∈ call.args → index < k

theorem SymbolicComputation.Recorded.result_lt_init {c : SymbolicComputation F V O}
    (h : c.Recorded) {k : ℕ} {call : Call F V O} (hcall : c.init[k]? = some call) {index : ℕ}
    (hmem : .result index ∈ call.args) : index < k := by
  refine h.result_lt k call ?_ index hmem
  rw [SymbolicComputation.calls, List.getElem?_append_left (List.getElem?_eq_some_iff.mp hcall).1]
  exact hcall

theorem SymbolicComputation.Recorded.result_lt_last {c : SymbolicComputation F V O}
    (h : c.Recorded) {index : ℕ} (hmem : .result index ∈ c.last.args) : index < c.init.length := by
  refine h.result_lt _ c.last ?_ index hmem
  rw [SymbolicComputation.calls, List.getElem?_append_right (Nat.le_refl _), Nat.sub_self]
  rfl

/-- One call that has an input, and no earlier result. -/
theorem recorded_singleton {call : Call F V O} (hinputs : call.inputs ≠ [])
    (hresult : ∀ index, .result index ∉ call.args) :
    (⟨[], call⟩ : SymbolicComputation F V O).Recorded where
  inputs_ne_nil := by
    rw [SymbolicComputation.inputs_eq, List.flatMap_nil, List.nil_append]
    exact hinputs
  result_lt k call' hcall index hmem := by
    rw [List.mem_singleton.mp (List.mem_of_getElem? hcall)] at hmem
    exact absurd hmem (hresult index)

/-! ### Other operands -/

def Argument.map (f : O → P) : Argument V O → Argument V P
  | .symbolic concreteValue symbolicOperand => .symbolic concreteValue (f symbolicOperand)
  | .concrete v => .concrete v
  | .result index => .result index

def Call.map (f : O → P) (call : Call F V O) : Call F V P :=
  ⟨call.function, call.args.map (Argument.map f)⟩

def Input.map (f : O → P) (input : Input V O) : Input V P :=
  ⟨input.concreteValue, f input.symbolicOperand⟩

def SymbolicComputation.map (f : O → P) (c : SymbolicComputation F V O) :
    SymbolicComputation F V P :=
  ⟨c.init.map (Call.map f), c.last.map f⟩

/-- `getSymbolicExpressionOrNull` for the arguments that are symbolic. -/
def Argument.lookUp (symbolicExpressions : V → Option O) (null : O) :
    Argument V Unit → Argument V O
  | .symbolic v _ => .symbolic v ((symbolicExpressions v).getD null)
  | .concrete v => .concrete v
  | .result index => .result index

/-- `Symbolizer::forceBuildRuntimeCall` -/
def forceBuildRuntimeCall (symbolicExpressions : V → Option O) (null : O) (function : F)
    (args : List (Argument V Unit)) : SymbolicComputation F V O :=
  ⟨[], function, args.map (Argument.lookUp symbolicExpressions null)⟩

theorem Call.inputs_map (f : O → P) (call : Call F V O) :
    (call.map f).inputs = call.inputs.map (Input.map f) := by
  rw [Call.inputs, Call.inputs, Call.map, List.filterMap_map, List.map_filterMap]
  congr 1
  funext a
  rcases a with - | - | - <;> rfl

theorem SymbolicComputation.calls_map (f : O → P) (c : SymbolicComputation F V O) :
    (c.map f).calls = c.calls.map (Call.map f) := by
  rw [calls, calls, SymbolicComputation.map, List.map_append, List.map_singleton]

theorem SymbolicComputation.inputs_map (f : O → P) (c : SymbolicComputation F V O) :
    (c.map f).inputs = c.inputs.map (Input.map f) := by
  rw [inputs, inputs, calls_map, List.flatMap_map, List.map_flatMap]
  congr 1
  funext call
  exact call.inputs_map f

theorem SymbolicComputation.map_map {Q : Type} (f : O → P) (g : P → Q)
    (c : SymbolicComputation F V O) : (c.map f).map g = c.map fun operand ↦ g (f operand) := by
  have hcall (call : Call F V O) : (call.map f).map g = call.map fun operand ↦ g (f operand) := by
    rw [Call.map, Call.map, Call.map, List.map_map]
    congr 2
    funext arg
    rcases arg with - | - | - <;> rfl
  simp only [SymbolicComputation.map, List.map_map, Function.comp_def, hcall]

theorem SymbolicComputation.Recorded.map {c : SymbolicComputation F V O} (h : c.Recorded)
    (f : O → P) : (c.map f).Recorded where
  inputs_ne_nil := by
    rw [inputs_map, Ne, List.map_eq_nil_iff]
    exact h.inputs_ne_nil
  result_lt k call hcall index hmem := by
    rw [calls_map, List.getElem?_map, Option.map_eq_some_iff] at hcall
    obtain ⟨call, hk, rfl⟩ := hcall
    obtain ⟨arg, harg, hresult⟩ := List.mem_map.mp hmem
    cases arg with
    | symbolic | concrete => cases hresult
    | result index' =>
      obtain rfl := Argument.result.inj hresult
      exact h.result_lt k call hk index' harg

end Computations

/-! ## What a computation is for -/

/-- An argument of a call at run time. -/
inductive ArgValue (C E : Type)
  | expr (e : Option E)
  | concrete (x : C)

/-- What happens in a run, as far as it can make a difference later. -/
inductive Event (F C E : Type)
  | call (function : F) (args : List (ArgValue C E))
  /-- another instruction that uses expressions -/
  | other (n : ℕ) (operands : List (Option E))
  /-- a basic block of the program is entered -/
  | block (b : ℕ)

/-- The runtime library and the rest of the program, as functions of what has happened. -/
structure Environment (F V C E : Type) where
  /-- The value that the program has computed. -/
  value : List (Event F C E) → V → C
  /-- `createValueExpression`, whose code depends on the type of the value. -/
  createValueExpression : V → C → Option E
  /-- What a call returns. -/
  call : List (Event F C E) → F → List (ArgValue C E) → Option E
  /-- The expression that another instruction results in. -/
  other : List (Event F C E) → ℕ → List (Option E) → Option E

section Evaluation

variable {F V O C E : Type} (world : Environment F V C E)

/-- The expression for an input: its own, or else one made of the value. `start` is what has
happened before the computation. -/
def Input.resolve (start : List (Event F C E)) (env : O → Option E) (input : Input V O) :
    Option E :=
  match env input.symbolicOperand with
  | some e => some e
  | none =>
    world.createValueExpression input.concreteValue (world.value start input.concreteValue)

/-- An argument, after the calls that have had the given results. -/
def Argument.eval (start now : List (Event F C E)) (env : O → Option E)
    (results : List (Option E)) : Argument V O → ArgValue C E
  | .symbolic concreteValue symbolicOperand =>
    .expr (Input.resolve world start env ⟨concreteValue, symbolicOperand⟩)
  | .concrete v => .concrete (world.value now v)
  | .result index => .expr (results.getD index none)

/-- One call, after the events and the results so far. -/
def Call.eval (start : List (Event F C E)) (env : O → Option E)
    (sofar : List (Event F C E) × List (Option E)) (call : Call F V O) :
    List (Event F C E) × List (Option E) :=
  let args := call.args.map (Argument.eval world start sofar.1 env sofar.2)
  (sofar.1 ++ [.call call.function args], sofar.2 ++ [world.call sofar.1 call.function args])

theorem length_foldl_eval (start : List (Event F C E)) (env : O → Option E)
    (calls : List (Call F V O)) (sofar : List (Event F C E) × List (Option E)) :
    (calls.foldl (Call.eval world start env) sofar).2.length = sofar.2.length + calls.length := by
  induction calls generalizing sofar with
  | nil => rfl
  | cons call calls ih =>
    rw [List.foldl_cons, ih, Call.eval, List.length_append, List.length_singleton,
      List.length_cons, Nat.add_assoc, Nat.add_comm 1]

namespace SymbolicComputation

/-- All inputs are null. -/
def AllNull (env : O → Option E) (c : SymbolicComputation F V O) : Prop :=
  ∀ input ∈ c.inputs, (env input.symbolicOperand).isNone

instance (env : O → Option E) (c : SymbolicComputation F V O) : Decidable (c.AllNull env) :=
  inferInstanceAs (Decidable (∀ _ ∈ _, _))

/-- The calls in order: what has happened after them, and their results. -/
def evalCalls (start : List (Event F C E)) (env : O → Option E) (c : SymbolicComputation F V O) :
    List (Event F C E) × List (Option E) :=
  c.calls.foldl (Call.eval world start env) (start, [])

theorem evalCalls_eq (start : List (Event F C E)) (env : O → Option E)
    (c : SymbolicComputation F V O) :
    c.evalCalls world start env = Call.eval world start env
      (c.init.foldl (Call.eval world start env) (start, [])) c.last := by
  rw [evalCalls, calls, List.foldl_append, List.foldl_cons, List.foldl_nil]

/-- What has happened after the computation, and its result. -/
def evaluate (start : List (Event F C E)) (env : O → Option E) (c : SymbolicComputation F V O) :
    List (Event F C E) × Option E :=
  if c.AllNull env then (start, none)
  else ((c.evalCalls world start env).1, (c.evalCalls world start env).2.getLastD none)

/-- With an input that is not null, the result is what the last call returns. -/
theorem evaluate_of_not_allNull {start : List (Event F C E)} {env : O → Option E}
    {c : SymbolicComputation F V O} (hnot : ¬ c.AllNull env) :
    let sofar := c.init.foldl (Call.eval world start env) (start, [])
    let args := c.last.args.map (Argument.eval world start sofar.1 env sofar.2)
    c.evaluate world start env
      = (sofar.1 ++ [.call c.last.function args], world.call sofar.1 c.last.function args) := by
  intro sofar args
  rw [evaluate, if_neg hnot, evalCalls_eq, Call.eval, List.getLastD_concat]

end SymbolicComputation

/-! ### Other operands with the same values -/

section Map

variable {P : Type} {f : O → P} {env : O → Option E} {env' : P → Option E}

theorem Call.eval_map {start : List (Event F C E)} {call : Call F V O}
    (h : ∀ input ∈ call.inputs, env' (f input.symbolicOperand) = env input.symbolicOperand)
    (sofar : List (Event F C E) × List (Option E)) :
    (call.map f).eval world start env' sofar = call.eval world start env sofar := by
  have hargs : (call.map f).args.map (Argument.eval world start sofar.1 env' sofar.2)
      = call.args.map (Argument.eval world start sofar.1 env sofar.2) := by
    rw [Call.map, List.map_map]
    refine List.map_congr_left fun arg harg ↦ ?_
    cases arg with
    | symbolic v operand =>
      have hinput := h ⟨v, operand⟩ (List.mem_filterMap.mpr ⟨_, harg, rfl⟩)
      rw [Function.comp, Argument.map, Argument.eval, Argument.eval, Input.resolve, Input.resolve,
        hinput]
    | concrete v => rfl
    | result index => rfl
  rw [Call.eval, Call.eval, hargs]
  rfl

theorem SymbolicComputation.evaluate_map {start : List (Event F C E)}
    {c : SymbolicComputation F V O}
    (h : ∀ input ∈ c.inputs, env' (f input.symbolicOperand) = env input.symbolicOperand) :
    (c.map f).evaluate world start env' = c.evaluate world start env := by
  have hcalls (calls : List (Call F V O)) (sofar : List (Event F C E) × List (Option E))
      (hcalls : ∀ call ∈ calls, ∀ input ∈ call.inputs,
        env' (f input.symbolicOperand) = env input.symbolicOperand) :
      (calls.map (Call.map f)).foldl (Call.eval world start env') sofar
        = calls.foldl (Call.eval world start env) sofar := by
    induction calls generalizing sofar with
    | nil => rfl
    | cons call calls ih =>
      rw [List.forall_mem_cons] at hcalls
      rw [List.map_cons, List.foldl_cons, List.foldl_cons, Call.eval_map world hcalls.1,
        ih _ hcalls.2]
  have heval : (c.map f).evalCalls world start env' = c.evalCalls world start env := by
    rw [evalCalls, evalCalls, calls_map]
    exact hcalls _ _ fun call hcall input hinput ↦
      h input (List.mem_flatMap.mpr ⟨call, hcall, hinput⟩)
  have hnull : (c.map f).AllNull env' ↔ c.AllNull env := by
    rw [AllNull, AllNull, inputs_map, List.forall_mem_map]
    exact forall₂_congr fun input hinput ↦ by rw [Input.map, h input hinput]
  rw [evaluate, evaluate, heval]
  exact if_congr hnull rfl rfl

end Map

end Evaluation

end Adacc.ShortCircuiting
