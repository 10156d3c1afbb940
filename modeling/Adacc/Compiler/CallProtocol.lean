import Adacc.Foundation.Machine
import Adacc.Foundation.TraverseOption
import Adacc.Runtime.RuntimeCommon
import Adacc.SimpleBackend.Builders

/-!
# Passing expressions across calls

Instrumented functions hand the expressions of arguments and of the result to each other through
global slots of the runtime library. The caller fills one slot per argument and, if the result is
used, empties the slot of the result; the callee reads the slots of its used formals on entry and
fills the slot of the result on return. Functions that are not instrumented do none of this, so
the slots keep whatever the last instrumented caller or callee left in them.

## The machine

A state is the slots and a stack of activations, the running one first. An event is what the
running activation does next: compute a value, call, or return. An event that the running
activation cannot perform changes nothing. Every step answers with the values that instrumented
code has obtained through the slots, each with the expression it was given for it.

Between a call in instrumented code and the entry of the callee, and between a return and the
caller's next instruction, no other code touches the slots, so each of these is one step. What an
activation computes by itself is an `Evaluation`, which carries the proof that it keeps values and
expressions in agreement; how the compiler pass achieves that is the subject of other files.

## What holds

Agreement is passed on by every step between two instrumented activations, by the entry of `main`
and by steps that stay outside instrumented code, in any nesting. The two remaining kinds of steps
read a slot that nobody has prepared for them: the entry of an instrumented function that was
called back from other code, and the return of other code below which a callback may have left its
own result.

What such a step finds depends on the past of the run: which instrumented call has last passed an
argument of that number, and whether an instrumented function has returned since the last call that
emptied the slot of the result. The past is a list of `Handover`s, which knows the values that were
handed over and whether they had expressions, and nothing of slots. `NothingStale` says in its terms
what is required of a step, and `expressionPassing_iff` that the protocol is right in exactly the
runs whose steps all meet it. `nothingStale_of_noCallbacks` is what emptying the slot of the result
is good for: without callbacks there is nothing stale.
-/

namespace Adacc

open SmtLib TraverseOption

/-- A value of the program and the expression that instrumented code holds for it. -/
abbrev Held (SymExpr : Type) := Value × Option SymExpr

/-- The expression is null or evaluates to the value. -/
def Agrees {SymExpr : Type} [Backend SymExpr] (ρ : Input) (h : Held SymExpr) : Prop :=
  ∀ e, h.2 = some e → Backend.eval ρ e = h.1

/-! ## Code at calls -/

/-- What matters about a function here: whether it has been instrumented, whether it is `main`,
whether it returns `void`, and for each formal whether it has users. -/
structure Function where
  instrumented : Bool
  isMain : Bool
  void : Bool
  args : List Bool

section Instrumentation

variable {SymExpr : Type}

/-- The calls of `_sym_set_parameter_expression`, for the arguments from number `argNo` on. -/
def setParameterExpressions : ℕ → List (Held SymExpr) → Slots SymExpr → Slots SymExpr
  | _, [], slots => slots
  | argNo, (_, expr) :: args, slots =>
    setParameterExpressions (argNo + 1) args
      (slots.symSetParameterExpression (UInt8.ofNat argNo) expr)

/-- What `handleFunctionCall` inserts before a call. -/
def handleFunctionCall (args : List (Held SymExpr)) (resultUsed : Bool) (slots : Slots SymExpr) :
    Slots SymExpr :=
  let slots := setParameterExpressions 0 args slots
  if resultUsed then slots.symSetReturnExpression none else slots

/-- The calls of `_sym_get_parameter_expression`, for the formals from number `argNo` on. A formal
without users gets no expression. -/
def getParameterExpressions (slots : Slots SymExpr) : ℕ → List Bool → List Value →
    List (Held SymExpr)
  | argNo, used :: args, value :: values =>
    (value, if used then slots.symGetParameterExpression (UInt8.ofNat argNo) else none) ::
      getParameterExpressions slots (argNo + 1) args values
  | _, _, _ => []

/-- What `symbolizeFunctionArguments` inserts at the entry of a function, as the values and
expressions of its formals. -/
def symbolizeFunctionArguments (F : Function) (values : List Value) (slots : Slots SymExpr) :
    List (Held SymExpr) :=
  if F.isMain then values.map fun value ↦ (value, none)
  else getParameterExpressions slots 0 F.args values

end Instrumentation

/-! ## Runs of mixed code -/

/-- Something an activation computes from the values it holds. It keeps values and expressions in
agreement. -/
structure Evaluation (SymExpr : Type) [Backend SymExpr] (ρ : Input) where
  apply : List (Held SymExpr) → Held SymExpr
  agrees : ∀ held, (∀ h ∈ held, Agrees ρ h) → Agrees ρ (apply held)

/-- A function in execution, with what it holds if it is instrumented, and whether the call
instruction that it was entered by has users. -/
structure Activation (SymExpr : Type) where
  function : Function
  held : List (Held SymExpr)
  resultUsed : Bool

/-- The slots and the activations, the running one first. -/
structure CallState (SymExpr : Type) where
  slots : Slots SymExpr
  stack : List (Activation SymExpr)

/-- What the running activation does next. Instrumented code names the values it passes by their
positions; of other code only the values are known. -/
inductive CallEvent (SymExpr : Type) [Backend SymExpr] (ρ : Input)
  | evaluate (f : Evaluation SymExpr ρ)
  | call (callee : Function) (operands : List ℕ) (resultUsed : Bool)
  | externalCall (callee : Function) (values : List Value)
  | ret (operand : Option ℕ)
  | externalReturn (value : Option Value)

section Step

variable {SymExpr : Type}

/-- The entry of the callee. -/
def CallState.enter (callee : Function) (values : List Value) (resultUsed : Bool)
    (s : CallState SymExpr) : CallState SymExpr × List (Held SymExpr) :=
  let held := if callee.instrumented then symbolizeFunctionArguments callee values s.slots else []
  ({ s with stack := ⟨callee, held, resultUsed⟩ :: s.stack }, held)

/-- The end of the running activation and the continuation of its caller, which asks for the
expression of the result if it is instrumented and uses the result. -/
def CallState.leave (value : Option Value) (s : CallState SymExpr) :
    CallState SymExpr × List (Held SymExpr) :=
  match s.stack with
  | callee :: caller :: stack =>
    match value with
    | some value =>
      if caller.function.instrumented && callee.resultUsed then
        let (expr, slots) := s.slots.symGetReturnExpression
        (⟨slots, { caller with held := caller.held ++ [(value, expr)] } :: stack⟩, [(value, expr)])
      else (⟨s.slots, caller :: stack⟩, [])
    | none => (⟨s.slots, caller :: stack⟩, [])
  | _ => (⟨s.slots, []⟩, [])

variable [Backend SymExpr] {ρ : Input}

/-- Instrumented code computes a value. -/
def CallState.evaluate (f : Evaluation SymExpr ρ) (a : Activation SymExpr) (s : CallState SymExpr) :
    CallState SymExpr × List (Held SymExpr) :=
  if a.function.instrumented then
    ({ s with stack := { a with held := a.held ++ [f.apply a.held] } :: s.stack.tail }, [])
  else (s, [])

/-- Instrumented code calls a function with values it holds, at least one for each formal. -/
def CallState.call (callee : Function) (operands : List ℕ) (resultUsed : Bool)
    (a : Activation SymExpr) (s : CallState SymExpr) : CallState SymExpr × List (Held SymExpr) :=
  match operands.mapM (a.held[·]?) with
  | some args =>
    if a.function.instrumented ∧ callee.args.length ≤ args.length then
      { s with slots := handleFunctionCall args resultUsed s.slots }.enter callee
        (args.map Prod.fst) resultUsed
    else (s, [])
  | none => (s, [])

/-- Other code calls a function. -/
def CallState.externalCall (callee : Function) (values : List Value) (a : Activation SymExpr)
    (s : CallState SymExpr) : CallState SymExpr × List (Held SymExpr) :=
  if ¬a.function.instrumented ∧ callee.args.length ≤ values.length then
    s.enter callee values false
  else (s, [])

/-- Instrumented code returns, after what `visitReturnInst` inserts. -/
def CallState.ret (operand : Option ℕ) (a : Activation SymExpr) (s : CallState SymExpr) :
    CallState SymExpr × List (Held SymExpr) :=
  match operand with
  | none => if a.function.instrumented ∧ a.function.void then s.leave none else (s, [])
  | some i =>
    match a.held[i]? with
    | some (value, expr) =>
      if a.function.instrumented ∧ ¬a.function.void then
        { s with slots := s.slots.symSetReturnExpression expr }.leave (some value)
      else (s, [])
    | none => (s, [])

/-- Other code returns. -/
def CallState.externalReturn (value : Option Value) (a : Activation SymExpr)
    (s : CallState SymExpr) : CallState SymExpr × List (Held SymExpr) :=
  if ¬a.function.instrumented ∧ value.isNone = a.function.void then s.leave value else (s, [])

/-- One step of the running activation. -/
def CallState.step (s : CallState SymExpr) (event : CallEvent SymExpr ρ) :
    CallState SymExpr × List (Held SymExpr) :=
  match s.stack with
  | [] => (s, [])
  | a :: _ =>
    match event with
    | .evaluate f => s.evaluate f a
    | .call callee operands resultUsed => s.call callee operands resultUsed a
    | .externalCall callee values => s.externalCall callee values a
    | .ret operand => s.ret operand a
    | .externalReturn value => s.externalReturn value a

/-- The number of arguments that instrumented code passes. -/
def CallEvent.arity : CallEvent SymExpr ρ → ℕ
  | .call _ operands _ => operands.length
  | .externalCall _ values => values.length
  | .evaluate _ | .ret _ | .externalReturn _ => 0

end Step

/-- The startup code, which is not instrumented, is about to initialize the program. -/
def CallState.init {SymExpr : Type} : CallState SymExpr :=
  ⟨.init, [⟨⟨false, false, false, []⟩, [], false⟩]⟩

variable {SymExpr : Type} [Backend SymExpr] {ρ : Input}

/-! ## The past of a run -/

/-- A value that is handed over, and whether there is an expression for it. -/
abbrev Handed := Value × Bool

/-- What instrumented code does at calls and returns. It passes arguments to a call whose result it
may use, it returns a value, or it takes the result of a call. -/
inductive Handover
  | arguments (args : List Handed) (resultUsed : Bool)
  | result (value : Handed)
  | taken

section Handovers

/-- What an activation holds, without its expression. -/
def handed {SymExpr : Type} (h : Held SymExpr) : Handed := (h.1, h.2.isSome)

/-- The argument of number `i` that has been passed last, after one more step. -/
def Handover.argument (i : ℕ) (last : Option Handed) : Handover → Option Handed
  | .arguments args _ => args[i]?.or last
  | .result _ | .taken => last

/-- The argument of number `i` that has been passed last. -/
def lastArgument (i : ℕ) (past : List Handover) : Option Handed :=
  past.foldl (Handover.argument i) none

/-- The result that is left, after one more step. -/
def Handover.left (last : Option Handed) : Handover → Option Handed
  | .arguments _ resultUsed => if resultUsed then none else last
  | .result value => some value
  | .taken => none

/-- The value that has been returned last, if nobody has taken it, and no call whose result is used
has been made since. -/
def lastResult (past : List Handover) : Option Handed := past.foldl Handover.left none

theorem lastArgument_concat (i : ℕ) (past : List Handover) (handover : Handover) :
    lastArgument i (past ++ [handover]) = handover.argument i (lastArgument i past) :=
  List.foldl_concat ..

theorem lastResult_concat (past : List Handover) (handover : Handover) :
    lastResult (past ++ [handover]) = handover.left (lastResult past) :=
  List.foldl_concat ..

variable {SymExpr : Type}

/-- An instrumented caller takes the result that it uses. -/
def Activation.takenFrom (callee : Activation SymExpr) : List (Activation SymExpr) → List Handover
  | caller :: _ => if caller.function.instrumented && callee.resultUsed then [.taken] else []
  | [] => []

/-- What instrumented code hands over in a step. -/
def CallState.handovers [Backend SymExpr] {ρ : Input} (s : CallState SymExpr)
    (event : CallEvent SymExpr ρ) : List Handover :=
  match s.stack with
  | [] => []
  | a :: stack =>
    match event with
    | .call callee operands resultUsed =>
      match operands.mapM (a.held[·]?) with
      | some args =>
        if a.function.instrumented ∧ callee.args.length ≤ args.length then
          [.arguments (args.map handed) resultUsed]
        else []
      | none => []
    | .ret (some i) =>
      match a.held[i]? with
      | some (value, expr) =>
        if a.function.instrumented ∧ ¬a.function.void then
          .result (handed (value, expr)) :: a.takenFrom stack
        else []
      | none => []
    | .externalReturn (some _) =>
      if ¬a.function.instrumented ∧ ¬a.function.void then a.takenFrom stack else []
    | .evaluate _ | .externalCall _ _ | .ret none | .externalReturn none => []

end Handovers

variable {SymExpr : Type} [Backend SymExpr] {ρ : Input}

/-- The machine with its past. -/
abbrev CallState.stepWithPast :
    List Handover × CallState SymExpr → CallEvent SymExpr ρ →
      (List Handover × CallState SymExpr) × List (Held SymExpr) :=
  Machine.record CallState.handovers CallState.step

/-- What has been handed over last was this value, or had no expression. -/
def NotStale (last : Option Handed) (value : Value) : Prop := ∀ v, last = some (v, true) → v = value

/-- Where code that is not instrumented enters or leaves instrumented code, nothing stale is left:
the argument passed last under the number of a formal that has users, or the result left behind. -/
def NothingStale (s : List Handover × CallState SymExpr) (event : CallEvent SymExpr ρ) : Prop :=
  match s.2.stack, event with
  | a :: _, .externalCall callee values =>
    ¬a.function.instrumented → callee.args.length ≤ values.length → callee.instrumented →
      ¬callee.isMain → ∀ i value, callee.args[i]? = some true → values[i]? = some value →
        NotStale (lastArgument i s.1) value
  | a :: caller :: _, .externalReturn (some value) =>
    ¬a.function.instrumented → ¬a.function.void → caller.function.instrumented → a.resultUsed →
      NotStale (lastResult s.1) value
  | _, _ => True

/-! ## Lemmas about the slots -/

@[simp] theorem agrees_none (v : Value) : Agrees ρ ((v, none) : Held SymExpr) := by
  intro e he
  cases he

private theorem ofNat_ne_ofNat {i j : ℕ} (hi : i < 256) (hj : j < 256) (h : i ≠ j) :
    UInt8.ofNat i ≠ UInt8.ofNat j := by
  intro heq
  have hnat := congrArg UInt8.toNat heq
  rw [UInt8.toNat_ofNat', UInt8.toNat_ofNat', Nat.mod_eq_of_lt hi, Nat.mod_eq_of_lt hj] at hnat
  exact h hnat

omit [Backend SymExpr] in
/-- Setting the slots from number `argNo` on leaves those before. -/
theorem getParameter_set_of_lt {args : List (Held SymExpr)} {argNo i : ℕ}
    (hlen : argNo + args.length ≤ 256) (hi : i < argNo) (slots : Slots SymExpr) :
    (setParameterExpressions argNo args slots).symGetParameterExpression (UInt8.ofNat i)
      = slots.symGetParameterExpression (UInt8.ofNat i) := by
  induction args generalizing argNo slots with
  | nil => rfl
  | cons arg args ih =>
    rw [List.length_cons] at hlen
    rw [setParameterExpressions, ih (by omega) (by omega)]
    exact Function.update_of_ne (ofNat_ne_ofNat (by omega) (by omega) (by omega)) _ _

omit [Backend SymExpr] in
/-- Setting so many slots leaves those after. -/
theorem getParameter_set_of_le {args : List (Held SymExpr)} {argNo i : ℕ}
    (hi : argNo + args.length ≤ i) (hlt : i < 256) (slots : Slots SymExpr) :
    (setParameterExpressions argNo args slots).symGetParameterExpression (UInt8.ofNat i)
      = slots.symGetParameterExpression (UInt8.ofNat i) := by
  induction args generalizing argNo slots with
  | nil => rfl
  | cons arg args ih =>
    rw [List.length_cons] at hi
    rw [setParameterExpressions, ih (by omega)]
    exact Function.update_of_ne (ofNat_ne_ofNat hlt (by omega) (by omega)) _ _

omit [Backend SymExpr] in
/-- With at most 256 arguments, no two of them share a slot. -/
theorem getParameter_set (argNo : ℕ) {args : List (Held SymExpr)} {i : ℕ} {arg : Held SymExpr}
    (hlen : argNo + args.length ≤ 256) (hi : args[i]? = some arg) (slots : Slots SymExpr) :
    (setParameterExpressions argNo args slots).symGetParameterExpression (UInt8.ofNat (argNo + i))
      = arg.2 := by
  induction args generalizing argNo i slots with
  | nil => cases hi
  | cons first args ih =>
    rw [List.length_cons] at hlen
    rw [setParameterExpressions]
    rcases i with - | i
    · rw [List.getElem?_cons_zero, Option.some.injEq] at hi
      rw [getParameter_set_of_lt (by omega) (Nat.lt_succ_self _), ← hi]
      exact Function.update_self _ _ _
    · rw [List.getElem?_cons_succ] at hi
      rw [← ih (argNo + 1) (by omega) hi, Nat.add_assoc, Nat.add_comm 1]

omit [Backend SymExpr] in
@[simp] theorem functionArguments_handleFunctionCall (args : List (Held SymExpr))
    (resultUsed : Bool) (slots : Slots SymExpr) (index : UInt8) :
    (handleFunctionCall args resultUsed slots).symGetParameterExpression index
      = (setParameterExpressions 0 args slots).symGetParameterExpression index := by
  rcases resultUsed with - | - <;> rfl

/-- The expressions read for the formals agree when the slots of those with users do. -/
theorem getParameterExpressions_agrees_iff (slots : Slots SymExpr) {argNo : ℕ} {args : List Bool}
    {values : List Value} (hlen : args.length ≤ values.length) :
    (∀ h ∈ getParameterExpressions slots argNo args values, Agrees ρ h) ↔
      ∀ i value, args[i]? = some true → values[i]? = some value →
        Agrees ρ (value, slots.symGetParameterExpression (UInt8.ofNat (argNo + i))) := by
  induction args generalizing argNo values with
  | nil => simp [getParameterExpressions]
  | cons used args ih =>
    rcases values with - | ⟨value, values⟩
    · exact absurd hlen (by simp)
    rw [getParameterExpressions, List.forall_mem_cons, ih (Nat.le_of_succ_le_succ hlen)]
    constructor
    · rintro ⟨hfirst, hrest⟩ i v hused hvalue
      rcases i with - | i
      · rw [List.getElem?_cons_zero, Option.some.injEq] at hused hvalue
        rwa [if_pos hused, hvalue] at hfirst
      · have := hrest i v hused hvalue
        rwa [Nat.add_assoc, Nat.add_comm 1] at this
    · intro h
      refine ⟨?_, fun i v hused hvalue ↦ ?_⟩
      · rcases used with - | -
        · exact agrees_none value
        · exact h 0 value rfl rfl
      · rw [Nat.add_assoc, Nat.add_comm 1]
        exact h (i + 1) v hused hvalue

/-! ## One step -/

/-- What every instrumented activation holds agrees. -/
def CallState.Agreeing (ρ : Input) (s : CallState SymExpr) : Prop :=
  ∀ a ∈ s.stack, ∀ h ∈ a.held, Agrees ρ h

/-- Entering a function whose read slots agree. -/
theorem symbolizeFunctionArguments_agrees_iff {callee : Function} {values : List Value}
    {slots : Slots SymExpr} (hlen : callee.args.length ≤ values.length) :
    (∀ h ∈ symbolizeFunctionArguments callee values slots, Agrees ρ h) ↔
      (¬callee.isMain → ∀ i value, callee.args[i]? = some true → values[i]? = some value →
        Agrees ρ (value, slots.symGetParameterExpression (UInt8.ofNat i))) := by
  unfold symbolizeFunctionArguments
  split
  · next hmain =>
    refine iff_of_true (fun h hmem ↦ ?_) (absurd hmain)
    obtain ⟨value, -, rfl⟩ := List.mem_map.mp hmem
    exact agrees_none value
  · next hmain =>
    rw [getParameterExpressions_agrees_iff slots hlen, imp_iff_right hmain]
    simp only [Nat.zero_add]

theorem CallState.Agreeing.enter {s : CallState SymExpr} (hs : s.Agreeing ρ) {callee : Function}
    {values : List Value} {resultUsed : Bool}
    (h : ∀ h ∈ (s.enter callee values resultUsed).2, Agrees ρ h) :
    (s.enter callee values resultUsed).1.Agreeing ρ :=
  List.forall_mem_cons.mpr ⟨h, hs⟩

/-- What the caller learns when an activation ends. -/
theorem CallState.leave_answers_iff (slots : Slots SymExpr) (callee caller : Activation SymExpr)
    (stack : List (Activation SymExpr)) (value : Value) :
    (∀ h ∈ (CallState.leave (some value) ⟨slots, callee :: caller :: stack⟩).2, Agrees ρ h) ↔
      (caller.function.instrumented → callee.resultUsed → Agrees ρ (value, slots.returnValue)) := by
  by_cases hread : caller.function.instrumented = true ∧ callee.resultUsed = true
  · simp [CallState.leave, hread, Slots.symGetReturnExpression]
  · simpa [CallState.leave, hread] using fun hcaller hused ↦ absurd ⟨hcaller, hused⟩ hread

omit [Backend SymExpr] in
theorem CallState.leave_none_answers (s : CallState SymExpr) : (s.leave none).2 = [] := by
  rcases s with ⟨slots, - | ⟨callee, - | ⟨caller, stack⟩⟩⟩ <;> rfl

theorem CallState.Agreeing.leave {s : CallState SymExpr} (hs : s.Agreeing ρ)
    {value : Option Value} (h : ∀ h ∈ (s.leave value).2, Agrees ρ h) :
    (s.leave value).1.Agreeing ρ := by
  rcases s with ⟨slots, - | ⟨callee, - | ⟨caller, stack⟩⟩⟩
  · exact fun a ha ↦ absurd ha List.not_mem_nil
  · exact fun a ha ↦ absurd ha List.not_mem_nil
  have hcaller : ∀ a ∈ caller :: stack, ∀ h ∈ a.held, Agrees ρ h := (List.forall_mem_cons.mp hs).2
  rcases value with - | v
  · exact hcaller
  by_cases hread : (caller.function.instrumented && callee.resultUsed) = true
  · simp only [CallState.leave, if_pos hread] at h ⊢
    rw [List.forall_mem_cons] at hcaller
    refine List.forall_mem_cons.mpr ⟨?_, hcaller.2⟩
    exact List.forall_mem_append.mpr ⟨hcaller.1, h⟩
  · simp only [CallState.leave, if_neg hread]
    exact hcaller

/-- Between two instrumented activations, the callee reads what the caller has set. -/
theorem CallState.call_answers {a : Activation SymExpr} (ha : ∀ h ∈ a.held, Agrees ρ h)
    {callee : Function} {operands : List ℕ} (harity : operands.length ≤ 256) {resultUsed : Bool}
    (s : CallState SymExpr) : ∀ h ∈ (s.call callee operands resultUsed a).2, Agrees ρ h := by
  unfold CallState.call
  split
  swap
  · exact List.forall_mem_nil _
  next args hargs =>
  split
  swap
  · exact List.forall_mem_nil _
  next hcall =>
  unfold CallState.enter
  split
  swap
  · exact List.forall_mem_nil _
  rw [symbolizeFunctionArguments_agrees_iff (by rw [List.length_map]; exact hcall.2)]
  intro _ i value _ hvalue
  rw [List.getElem?_map, Option.map_eq_some_iff] at hvalue
  obtain ⟨arg, harg, rfl⟩ := hvalue
  have hset := getParameter_set 0 (by rwa [Nat.zero_add, length_of_mapM hargs]) harg s.slots
  rw [Nat.zero_add] at hset
  rw [functionArguments_handleFunctionCall, hset]
  -- what is passed is among what the caller holds
  obtain ⟨n, -, hn⟩ := exists_mem_of_mapM hargs (List.mem_of_getElem? harg)
  exact ha arg (List.mem_of_getElem? hn)

/-- An instrumented caller reads what its instrumented callee has set. -/
theorem CallState.ret_answers {slots : Slots SymExpr} {a : Activation SymExpr}
    {stack : List (Activation SymExpr)} (ha : ∀ h ∈ a.held, Agrees ρ h) (operand : Option ℕ) :
    ∀ h ∈ (CallState.ret operand a ⟨slots, a :: stack⟩).2, Agrees ρ h := by
  unfold CallState.ret
  split
  · split
    · rw [CallState.leave_none_answers]
      exact List.forall_mem_nil _
    · exact List.forall_mem_nil _
  split
  swap
  · exact List.forall_mem_nil _
  next value expr hheld =>
  split
  swap
  · exact List.forall_mem_nil _
  rcases stack with - | ⟨caller, stack⟩
  · exact List.forall_mem_nil _
  rw [CallState.leave_answers_iff]
  exact fun _ _ ↦ ha _ (List.mem_of_getElem? hheld)

/-- Code that is not instrumented calls with the leftovers in the slots. -/
theorem CallState.externalCall_answers_iff (s : CallState SymExpr) (callee : Function)
    (values : List Value) (a : Activation SymExpr) :
    (∀ h ∈ (s.externalCall callee values a).2, Agrees ρ h) ↔
      (¬a.function.instrumented → callee.args.length ≤ values.length → callee.instrumented →
        ¬callee.isMain → ∀ i value, callee.args[i]? = some true → values[i]? = some value →
          Agrees ρ (value, s.slots.symGetParameterExpression (UInt8.ofNat i))) := by
  unfold CallState.externalCall
  split
  · next hcall =>
    rw [imp_iff_right hcall.1, imp_iff_right hcall.2, CallState.enter]
    split
    · next hinstrumented =>
      rw [imp_iff_right hinstrumented]
      exact symbolizeFunctionArguments_agrees_iff hcall.2
    · next hinstrumented =>
      exact iff_of_true (List.forall_mem_nil _) fun h ↦ absurd h hinstrumented
  · next hcall =>
    exact iff_of_true (List.forall_mem_nil _) fun ha hlen ↦
      absurd ⟨ha, hlen⟩ hcall

/-- Code that is not instrumented returns with a leftover in the slot. -/
theorem CallState.externalReturn_answers_iff (slots : Slots SymExpr)
    (a caller : Activation SymExpr) (stack : List (Activation SymExpr)) (value : Value) :
    (∀ h ∈ (CallState.externalReturn (some value) a ⟨slots, a :: caller :: stack⟩).2, Agrees ρ h) ↔
      (¬a.function.instrumented → ¬a.function.void → caller.function.instrumented →
        a.resultUsed → Agrees ρ (value, slots.returnValue)) := by
  unfold CallState.externalReturn
  split
  · next hret =>
    -- the function returns a value, so it is not void
    have hvoid : ¬a.function.void = true := by
      rw [← hret.2]
      exact Bool.false_ne_true
    rw [CallState.leave_answers_iff, imp_iff_right hret.1, imp_iff_right hvoid]
  · next hret =>
    refine iff_of_true (List.forall_mem_nil _) fun ha hvoid ↦ ?_
    exact absurd ⟨ha, (Bool.eq_false_of_not_eq_true hvoid).symm⟩ hret

/-- Where code that is not instrumented enters or leaves instrumented code, the slots that will be
read hold no leftover expression, or one that evaluates to the value that this code passes. -/
def LeftoversAgree (s : CallState SymExpr) (event : CallEvent SymExpr ρ) : Prop :=
  match s.stack, event with
  | a :: _, .externalCall callee values =>
    ¬a.function.instrumented → callee.args.length ≤ values.length → callee.instrumented →
      ¬callee.isMain → ∀ i value, callee.args[i]? = some true → values[i]? = some value →
        Agrees ρ (value, s.slots.symGetParameterExpression (UInt8.ofNat i))
  | a :: caller :: _, .externalReturn (some value) =>
    ¬a.function.instrumented → ¬a.function.void → caller.function.instrumented → a.resultUsed →
      Agrees ρ (value, s.slots.returnValue)
  | _, _ => True

/-- What a step answers agrees exactly when no leftover gets in its way. -/
theorem CallState.Agreeing.step_answers_iff {s : CallState SymExpr} (hs : s.Agreeing ρ)
    {event : CallEvent SymExpr ρ} (harity : event.arity ≤ 256) :
    (∀ h ∈ (s.step event).2, Agrees ρ h) ↔ LeftoversAgree s event := by
  rcases s with ⟨slots, - | ⟨a, stack⟩⟩
  · exact iff_of_true (List.forall_mem_nil _) trivial
  have ha : ∀ h ∈ a.held, Agrees ρ h := hs a List.mem_cons_self
  rcases event with f | ⟨callee, operands, used⟩ | ⟨callee, values⟩ | operand | value
  -- only the two kinds of steps by code without instrumentation ask for anything
  · refine iff_of_true ?_ trivial
    dsimp only [CallState.step, CallState.evaluate]
    split <;> exact List.forall_mem_nil _
  · exact iff_of_true (CallState.call_answers ha harity _) trivial
  · exact CallState.externalCall_answers_iff ⟨slots, a :: stack⟩ callee values a
  · exact iff_of_true (CallState.ret_answers ha operand) trivial
  · rcases value with - | value
    · refine iff_of_true ?_ trivial
      dsimp only [CallState.step, CallState.externalReturn]
      split
      · rw [CallState.leave_none_answers]
        exact List.forall_mem_nil _
      · exact List.forall_mem_nil _
    rcases stack with - | ⟨caller, stack⟩
    · refine iff_of_true ?_ trivial
      dsimp only [CallState.step, CallState.externalReturn]
      split <;> exact List.forall_mem_nil _
    · exact CallState.externalReturn_answers_iff slots a caller stack value

/-- A step changes the stack in one of four ways. -/
theorem CallState.step_cases (s : CallState SymExpr) (event : CallEvent SymExpr ρ) :
    s.step event = (s, []) ∨
      (∃ (f : Evaluation SymExpr ρ) (a : Activation SymExpr) (stack : _), s.stack = a :: stack ∧
        s.step event
          = ({ s with stack := { a with held := a.held ++ [f.apply a.held] } :: stack }, [])) ∨
      (∃ slots callee values used,
        s.step event = CallState.enter callee values used ⟨slots, s.stack⟩) ∨
      ∃ slots value, s.step event = CallState.leave value ⟨slots, s.stack⟩ := by
  rcases s with ⟨slots, - | ⟨a, stack⟩⟩
  · exact .inl rfl
  rcases event with f | ⟨callee, operands, used⟩ | ⟨callee, values⟩ | operand | value
  · dsimp only [CallState.step, CallState.evaluate]
    split
    · exact .inr (.inl ⟨f, a, stack, rfl, rfl⟩)
    · exact .inl rfl
  · dsimp only [CallState.step, CallState.call]
    split
    · split
      · exact .inr (.inr (.inl ⟨_, _, _, _, rfl⟩))
      · exact .inl rfl
    · exact .inl rfl
  · dsimp only [CallState.step, CallState.externalCall]
    split
    · exact .inr (.inr (.inl ⟨_, _, _, _, rfl⟩))
    · exact .inl rfl
  · dsimp only [CallState.step, CallState.ret]
    split
    · split
      · exact .inr (.inr (.inr ⟨_, _, rfl⟩))
      · exact .inl rfl
    split
    · split
      · exact .inr (.inr (.inr ⟨_, _, rfl⟩))
      · exact .inl rfl
    · exact .inl rfl
  · dsimp only [CallState.step, CallState.externalReturn]
    split
    · exact .inr (.inr (.inr ⟨_, _, rfl⟩))
    · exact .inl rfl

/-- A step that answers in agreement keeps everything held in agreement. -/
theorem CallState.Agreeing.step {s : CallState SymExpr} (hs : s.Agreeing ρ)
    {event : CallEvent SymExpr ρ} (h : ∀ h ∈ (s.step event).2, Agrees ρ h) :
    (s.step event).1.Agreeing ρ := by
  rcases s.step_cases event with hstep | ⟨f, a, stack, hstack, hstep⟩ | ⟨slots, _, _, _, hstep⟩ |
    ⟨slots, _, hstep⟩ <;> rw [hstep] at h ⊢
  · exact hs
  · unfold CallState.Agreeing at hs
    rw [hstack, List.forall_mem_cons] at hs
    refine List.forall_mem_cons.mpr ⟨?_, hs.2⟩
    exact List.forall_mem_append.mpr ⟨hs.1, List.forall_mem_singleton.mpr (f.agrees _ hs.1)⟩
  · exact CallState.Agreeing.enter (s := ⟨slots, s.stack⟩) hs h
  · exact CallState.Agreeing.leave (s := ⟨slots, s.stack⟩) hs h

/-! ## The slots and the past -/

/-- The expression evaluates to what was handed over last, and is null if that had none. -/
def Tracks (ρ : Input) (expr : Option SymExpr) (last : Option Handed) : Prop :=
  expr.map (Backend.eval ρ) = last.bind fun h ↦ if h.2 then some h.1 else none

theorem tracks_none : Tracks ρ (none : Option SymExpr) none := rfl

theorem Tracks.of_agrees {h : Held SymExpr} (hagrees : Agrees ρ h) :
    Tracks ρ h.2 (some (handed h)) := by
  rcases h with ⟨value, - | e⟩
  · rfl
  · exact congrArg some (hagrees e rfl)

/-- An expression that has been handed over for another value is stale. -/
theorem Tracks.agreesWith_iff {expr : Option SymExpr} {last : Option Handed}
    (h : Tracks ρ expr last) (value : Value) : Agrees ρ (value, expr) ↔ NotStale last value := by
  have hlast : ∀ v, last = some (v, true) ↔ ∃ e, expr = some e ∧ Backend.eval ρ e = v := by
    intro v
    rw [← Option.map_eq_some_iff, h, Option.bind_eq_some_iff]
    constructor
    · rintro rfl
      exact ⟨_, rfl, rfl⟩
    · rintro ⟨⟨w, - | -⟩, rfl, hw⟩
      · cases hw
      · rw [← Option.some.inj hw]
  constructor
  · intro hagrees v hv
    obtain ⟨e, he, rfl⟩ := (hlast v).mp hv
    exact hagrees e he
  · intro hstale e he
    exact hstale _ ((hlast _).mpr ⟨e, he, rfl⟩)

/-- Every slot holds the expression of what has been handed over last through it. -/
structure SlotsTrack (ρ : Input) (past : List Handover) (slots : Slots SymExpr) : Prop where
  argument : ∀ i < 256,
    Tracks ρ (slots.symGetParameterExpression (UInt8.ofNat i)) (lastArgument i past)
  result : Tracks ρ slots.returnValue (lastResult past)

private theorem slotsTrack_init : SlotsTrack ρ [] (Slots.init : Slots SymExpr) where
  argument _ _ := tracks_none
  result := tracks_none

section SlotsTrack

variable {past : List Handover} {slots : Slots SymExpr}

/-- A call fills the slots of its arguments, and empties that of its result if it is used. -/
theorem SlotsTrack.handleFunctionCall (h : SlotsTrack ρ past slots) {args : List (Held SymExpr)}
    (hargs : ∀ arg ∈ args, Agrees ρ arg) (hlen : args.length ≤ 256) (resultUsed : Bool) :
    SlotsTrack ρ (past ++ [.arguments (args.map handed) resultUsed])
      (handleFunctionCall args resultUsed slots) where
  argument i hi := by
    rw [lastArgument_concat, Handover.argument, List.getElem?_map,
      functionArguments_handleFunctionCall]
    rcases harg : args[i]? with - | arg
    · have hle : args.length ≤ i := List.getElem?_eq_none_iff.mp harg
      rw [getParameter_set_of_le (by rwa [Nat.zero_add]) hi]
      exact h.argument i hi
    · have hset := getParameter_set 0 (by rwa [Nat.zero_add]) harg slots
      rw [Nat.zero_add] at hset
      rw [hset]
      exact .of_agrees (hargs arg (List.mem_of_getElem? harg))
  result := by
    rw [lastResult_concat, Handover.left]
    cases resultUsed with
    | true => exact tracks_none
    | false =>
      have hsame : ∀ argNo (slots : Slots SymExpr),
          (setParameterExpressions argNo args slots).returnValue = slots.returnValue := by
        intro argNo slots
        induction args generalizing argNo slots with
        | nil => rfl
        | cons arg args ih =>
          rw [List.forall_mem_cons] at hargs
          exact ih hargs.2 (Nat.le_of_succ_le hlen) _ _
      show Tracks ρ (setParameterExpressions 0 args slots).returnValue (lastResult past)
      rw [hsame]
      exact h.result

/-- A return fills the slot of the result. -/
theorem SlotsTrack.setReturn (h : SlotsTrack ρ past slots) {held : Held SymExpr}
    (hheld : Agrees ρ held) :
    SlotsTrack ρ (past ++ [.result (handed held)]) (slots.symSetReturnExpression held.2) where
  argument i hi := by
    rw [lastArgument_concat]
    exact h.argument i hi
  result := by
    rw [lastResult_concat]
    exact .of_agrees hheld

/-- An instrumented caller that uses the result empties its slot. -/
theorem SlotsTrack.leave (h : SlotsTrack ρ past slots) (a : Activation SymExpr)
    (stack : List (Activation SymExpr)) (value : Value) :
    SlotsTrack ρ (past ++ a.takenFrom stack)
      (CallState.leave (some value) ⟨slots, a :: stack⟩).1.slots := by
  rcases stack with - | ⟨caller, stack⟩
  · rw [Activation.takenFrom, List.append_nil]
    exact h
  by_cases htaken : (caller.function.instrumented && a.resultUsed) = true
  · simp only [Activation.takenFrom, CallState.leave, if_pos htaken]
    constructor
    · intro i hi
      rw [lastArgument_concat]
      exact h.argument i hi
    · rw [lastResult_concat]
      exact tracks_none
  · simp only [Activation.takenFrom, CallState.leave, if_neg htaken, List.append_nil]
    exact h

omit [Backend SymExpr] in
theorem CallState.slots_leave_none (s : CallState SymExpr) : (s.leave none).1.slots = s.slots := by
  rcases s with ⟨slots, - | ⟨callee, - | ⟨caller, stack⟩⟩⟩ <;> rfl

/-- Every step keeps the slots and the past together. -/
theorem SlotsTrack.step {s : CallState SymExpr} (h : SlotsTrack ρ past s.slots)
    (hs : s.Agreeing ρ) {event : CallEvent SymExpr ρ} (harity : event.arity ≤ 256) :
    SlotsTrack ρ (past ++ s.handovers event) (s.step event).1.slots := by
  rcases s with ⟨slots, - | ⟨a, stack⟩⟩
  · rwa [CallState.handovers, List.append_nil]
  have ha : ∀ h ∈ a.held, Agrees ρ h := hs a List.mem_cons_self
  have hsame : SlotsTrack ρ (past ++ []) slots := by rwa [List.append_nil]
  rcases event with f | ⟨callee, operands, used⟩ | ⟨callee, values⟩ | operand | value
  · dsimp only [CallState.handovers, CallState.step, CallState.evaluate]
    split <;> exact hsame
  · dsimp only [CallState.handovers, CallState.step, CallState.call]
    split
    · next args hargs =>
      split
      · refine h.handleFunctionCall (fun arg harg ↦ ?_) (by rwa [length_of_mapM hargs]) used
        obtain ⟨n, -, hn⟩ := exists_mem_of_mapM hargs harg
        exact ha arg (List.mem_of_getElem? hn)
      · exact hsame
    · exact hsame
  · dsimp only [CallState.handovers, CallState.step, CallState.externalCall]
    split <;> exact hsame
  · rcases operand with - | i
    · dsimp only [CallState.handovers, CallState.step, CallState.ret]
      split
      · rwa [CallState.slots_leave_none]
      · exact hsame
    dsimp only [CallState.handovers, CallState.step, CallState.ret]
    split
    · next value expr hheld =>
      split
      · rw [List.append_cons]
        exact (h.setReturn (ha _ (List.mem_of_getElem? hheld))).leave a stack value
      · exact hsame
    · exact hsame
  · rcases value with - | value
    · dsimp only [CallState.handovers, CallState.step, CallState.externalReturn]
      split
      · rwa [CallState.slots_leave_none]
      · exact hsame
    dsimp only [CallState.handovers, CallState.step, CallState.externalReturn]
    simp only [Option.isNone_some, Bool.not_eq_true, @eq_comm _ false]
    split
    · exact h.leave a stack value
    · exact hsame

end SlotsTrack

/-! ## Runs -/

/-- Everything that instrumented code obtains through the slots in a run agrees. -/
def ExpressionsAgree (events : List (CallEvent SymExpr ρ)) : Prop :=
  ∀ held ∈ (Machine.run CallState.step .init events).2, ∀ h ∈ held, Agrees ρ h

/-- What is in the slots, told by the past. -/
theorem leftoversAgree_iff {s : List Handover × CallState SymExpr}
    (h : SlotsTrack ρ s.1 s.2.slots) {event : CallEvent SymExpr ρ} (harity : event.arity ≤ 256) :
    LeftoversAgree s.2 event ↔ NothingStale s event := by
  rcases s with ⟨past, slots, - | ⟨a, stack⟩⟩
  · exact Iff.rfl
  rcases event with f | ⟨callee, operands, used⟩ | ⟨callee, values⟩ | operand | value
  · exact Iff.rfl
  · exact Iff.rfl
  · refine forall_congr' fun _ ↦ forall_congr' fun _ ↦ forall_congr' fun _ ↦ forall_congr' fun _ ↦
      forall₄_congr fun i value _ hvalue ↦ ?_
    have hi : i < values.length := (List.getElem?_eq_some_iff.mp hvalue).1
    exact (h.argument i (hi.trans_le harity)).agreesWith_iff value
  · exact Iff.rfl
  · rcases value with - | value
    · exact Iff.rfl
    rcases stack with - | ⟨caller, stack⟩
    · exact Iff.rfl
    · exact forall₄_congr fun _ _ _ _ ↦ h.result.agreesWith_iff value

/-- With at most 256 arguments in every call, the protocol is right in exactly the runs in which
nothing stale is left for code that is not instrumented to expose. -/
theorem expressionPassing_iff (events : List (CallEvent SymExpr ρ))
    (harity : ∀ event ∈ events, event.arity ≤ 256) :
    ExpressionsAgree events ↔
      Machine.Along CallState.stepWithPast NothingStale ([], .init) events := by
  have hstep : ∀ (s : List Handover × CallState SymExpr) (event : CallEvent SymExpr ρ),
      s.2.Agreeing ρ ∧ SlotsTrack ρ s.1 s.2.slots → event.arity ≤ 256 →
        ((∀ h ∈ (CallState.stepWithPast s event).2, Agrees ρ h) ↔ NothingStale s event) :=
    fun s event hs hlen ↦
      (hs.1.step_answers_iff hlen).trans (leftoversAgree_iff hs.2 hlen)
  have hinit : (CallState.init : CallState SymExpr).Agreeing ρ :=
    List.forall_mem_singleton.mpr (List.forall_mem_nil _)
  rw [ExpressionsAgree, ← (Machine.run_record CallState.handovers CallState.step [] .init events).2]
  exact Machine.run_answers_iff hstep
    (fun s event hs hlen hanswer ↦ ⟨hs.1.step hanswer, hs.2.step hs.1 hlen⟩)
    ⟨hinit, slotsTrack_init⟩ harity

/-! ## Without callbacks -/

/-- Code that is not instrumented calls no instrumented function, except that the startup code calls
`main`. -/
def NoCallback (s : CallState SymExpr) : CallEvent SymExpr ρ → Prop
  | .externalCall callee _ => callee.instrumented → callee.isMain ∧ s.stack.length = 1
  | _ => True

section NoCallback

omit [Backend SymExpr]

/-- Only the startup code has called instrumented code from outside. -/
def EnteredOnce : List (Activation SymExpr) → Prop
  | a :: caller :: stack =>
    (a.function.instrumented → ¬caller.function.instrumented → stack = []) ∧
      EnteredOnce (caller :: stack)
  | _ => True

/-- While other code runs, the result that an instrumented caller waits for has not been left. -/
def ResultAwaited (past : List Handover) : List (Activation SymExpr) → Prop
  | a :: caller :: stack =>
    ¬a.function.instrumented →
      if caller.function.instrumented then a.resultUsed → lastResult past = none
      else ResultAwaited past (caller :: stack)
  | _ => True

theorem ResultAwaited.of_instrumented {past : List Handover} {a : Activation SymExpr}
    {stack : List (Activation SymExpr)} (ha : a.function.instrumented = true) :
    ResultAwaited past (a :: stack) := by
  cases stack with
  | nil => trivial
  | cons caller stack => exact fun hnot ↦ absurd ha hnot

/-- The caller goes on. -/
theorem EnteredOnce.leave {past : List Handover} {slots : Slots SymExpr}
    {a : Activation SymExpr} {stack : List (Activation SymExpr)}
    (hentered : EnteredOnce (a :: stack)) (value : Option Value)
    (h : ∀ caller rest, stack = caller :: rest → caller.function.instrumented = false →
      ResultAwaited past stack) :
    EnteredOnce (CallState.leave value ⟨slots, a :: stack⟩).1.stack ∧
      ResultAwaited past (CallState.leave value ⟨slots, a :: stack⟩).1.stack := by
  rcases stack with - | ⟨caller, stack⟩
  · exact ⟨trivial, trivial⟩
  have hrest : EnteredOnce (caller :: stack) := hentered.2
  have hawaited : ResultAwaited past (caller :: stack) := by
    cases hcaller : caller.function.instrumented with
    | true => exact .of_instrumented hcaller
    | false => exact h caller stack rfl hcaller
  rcases value with - | value
  · exact ⟨hrest, hawaited⟩
  by_cases htaken : (caller.function.instrumented && a.resultUsed) = true
  · simp only [CallState.leave, if_pos htaken]
    refine ⟨?_, .of_instrumented (Bool.and_eq_true_iff.mp htaken).1⟩
    cases stack with
    | nil => trivial
    | cons => exact hrest
  · simp only [CallState.leave, if_neg htaken]
    exact ⟨hrest, hawaited⟩

end NoCallback

section Step

variable {past : List Handover} {slots : Slots SymExpr} {a : Activation SymExpr}
  {stack : List (Activation SymExpr)}

omit [Backend SymExpr] in
private theorem ResultAwaited.append_nil (hentered : EnteredOnce (a :: stack))
    (h : ResultAwaited past (a :: stack)) :
    EnteredOnce (a :: stack) ∧ ResultAwaited (past ++ []) (a :: stack) :=
  ⟨hentered, (List.append_nil past).symm ▸ h⟩

/-- After a call whose result is used no result is left. -/
private theorem ResultAwaited.call (hentered : EnteredOnce (a :: stack))
    (h : ResultAwaited past (a :: stack)) (callee : Function) (operands : List ℕ) (used : Bool) :
    let s : CallState SymExpr := ⟨slots, a :: stack⟩
    let event : CallEvent SymExpr ρ := .call callee operands used
    EnteredOnce (s.step event).1.stack ∧
      ResultAwaited (past ++ s.handovers event) (s.step event).1.stack := by
  dsimp only [CallState.handovers, CallState.step, CallState.call]
  split
  · split
    · next hcall =>
      refine ⟨⟨fun _ hnot ↦ absurd hcall.1 hnot, hentered⟩, fun _ ↦ ?_⟩
      rw [if_pos hcall.1, lastResult_concat]
      rintro (rfl : used = true)
      rfl
    · exact h.append_nil hentered
  · exact h.append_nil hentered

/-- Other code only calls other code, except for the startup code. -/
private theorem ResultAwaited.externalCall (hentered : EnteredOnce (a :: stack))
    (h : ResultAwaited past (a :: stack)) {callee : Function} {values : List Value}
    (hevent : callee.instrumented → (a :: stack).length = 1) :
    let s : CallState SymExpr := ⟨slots, a :: stack⟩
    let event : CallEvent SymExpr ρ := .externalCall callee values
    EnteredOnce (s.step event).1.stack ∧
      ResultAwaited (past ++ s.handovers event) (s.step event).1.stack := by
  dsimp only [CallState.handovers, CallState.step, CallState.externalCall]
  split
  · next hcall =>
    refine ⟨⟨fun hcallee _ ↦ ?_, hentered⟩, fun _ ↦ ?_⟩
    · exact List.length_eq_zero_iff.mp (Nat.succ.inj (hevent hcallee))
    · rw [if_neg hcall.1]
      exact (h.append_nil hentered).2
  · exact h.append_nil hentered

/-- An instrumented activation returns to one like it, or to the startup code. -/
private theorem ResultAwaited.ret (hentered : EnteredOnce (a :: stack))
    (h : ResultAwaited past (a :: stack)) (operand : Option ℕ) :
    let s : CallState SymExpr := ⟨slots, a :: stack⟩
    let event : CallEvent SymExpr ρ := .ret operand
    EnteredOnce (s.step event).1.stack ∧
      ResultAwaited (past ++ s.handovers event) (s.step event).1.stack := by
  have hleave : a.function.instrumented = true → ∀ past' value slots,
      EnteredOnce (CallState.leave value ⟨slots, a :: stack⟩).1.stack ∧
        ResultAwaited past' (CallState.leave value ⟨slots, a :: stack⟩).1.stack := by
    intro ha past' value slots
    refine hentered.leave value fun caller rest hstack hcaller ↦ ?_
    subst hstack
    rw [hentered.1 ha (ne_true_of_eq_false hcaller)]
    trivial
  rcases operand with - | i
  · dsimp only [CallState.handovers, CallState.step, CallState.ret]
    split
    · next ha => exact hleave ha.1 _ none _
    · exact h.append_nil hentered
  dsimp only [CallState.handovers, CallState.step, CallState.ret]
  split
  · split
    · next ha => exact hleave ha.1 _ _ _
    · exact h.append_nil hentered
  · exact h.append_nil hentered

/-- Other code returns to other code, or to a caller that is not concerned any more. -/
private theorem ResultAwaited.externalReturn (hentered : EnteredOnce (a :: stack))
    (h : ResultAwaited past (a :: stack)) (value : Option Value) :
    let s : CallState SymExpr := ⟨slots, a :: stack⟩
    let event : CallEvent SymExpr ρ := .externalReturn value
    EnteredOnce (s.step event).1.stack ∧
      ResultAwaited (past ++ s.handovers event) (s.step event).1.stack := by
  have hleave : ¬a.function.instrumented = true → ∀ past' value,
      (∀ caller rest, stack = caller :: rest → caller.function.instrumented = false →
        past' = past) →
      EnteredOnce (CallState.leave value ⟨slots, a :: stack⟩).1.stack ∧
        ResultAwaited past' (CallState.leave value ⟨slots, a :: stack⟩).1.stack := by
    intro ha past' value hpast
    refine hentered.leave value fun caller rest hstack hcaller ↦ ?_
    rw [hpast caller rest hstack hcaller]
    subst hstack
    have hawaited := h ha
    rwa [if_neg (ne_true_of_eq_false hcaller)] at hawaited
  rcases value with - | value
  · dsimp only [CallState.handovers, CallState.step, CallState.externalReturn]
    split
    · next ha => exact hleave ha.1 _ none fun _ _ _ _ ↦ List.append_nil past
    · exact h.append_nil hentered
  dsimp only [CallState.handovers, CallState.step, CallState.externalReturn]
  simp only [Option.isNone_some, Bool.not_eq_true, @eq_comm _ false]
  split
  · next ha =>
    refine hleave (ne_true_of_eq_false ha.1) _ _ fun caller rest hstack hcaller ↦ ?_
    rw [hstack, Activation.takenFrom, hcaller, Bool.false_and, if_neg Bool.false_ne_true,
      List.append_nil]
  · exact h.append_nil hentered

end Step

/-- A step without a callback. -/
theorem ResultAwaited.step {past : List Handover} {s : CallState SymExpr}
    (h : ResultAwaited past s.stack) (hentered : EnteredOnce s.stack) {event : CallEvent SymExpr ρ}
    (hevent : NoCallback s event) :
    EnteredOnce (s.step event).1.stack ∧
      ResultAwaited (past ++ s.handovers event) (s.step event).1.stack := by
  rcases s with ⟨slots, - | ⟨a, stack⟩⟩
  · exact ⟨trivial, trivial⟩
  rcases event with f | ⟨callee, operands, used⟩ | ⟨callee, values⟩ | operand | value
  · dsimp only [CallState.handovers, CallState.step, CallState.evaluate]
    split
    · next ha =>
      refine ⟨?_, .of_instrumented ha⟩
      cases stack with
      | nil => trivial
      | cons => exact hentered
    · exact h.append_nil hentered
  · exact h.call hentered callee operands used
  · exact h.externalCall hentered fun hcallee ↦ (hevent hcallee).2
  · exact h.ret hentered operand
  · exact h.externalReturn hentered value

theorem ResultAwaited.nothingStale {past : List Handover} {s : CallState SymExpr}
    (h : ResultAwaited past s.stack) {event : CallEvent SymExpr ρ} (hevent : NoCallback s event) :
    NothingStale (past, s) event := by
  rcases s with ⟨slots, - | ⟨a, stack⟩⟩
  · trivial
  rcases event with f | ⟨callee, operands, used⟩ | ⟨callee, values⟩ | operand | value
  · trivial
  · trivial
  · exact fun _ _ hcallee hmain ↦ absurd (hevent hcallee).1 hmain
  · trivial
  · rcases value with - | value
    · trivial
    rcases stack with - | ⟨caller, stack⟩
    · trivial
    intro ha _ hcaller hused v hv
    have hawaited := h ha
    rw [if_pos hcaller] at hawaited
    have hnone : lastResult past = none := hawaited hused
    rw [show lastResult past = some (v, true) from hv] at hnone
    cases hnone

/-- Without callbacks there is nothing stale: the startup code enters `main`, which reads no slot,
and a call whose result is used empties the slot that is read when it returns. -/
theorem nothingStale_of_noCallbacks {events : List (CallEvent SymExpr ρ)}
    (h : Machine.Along CallState.step NoCallback .init events) :
    Machine.Along CallState.stepWithPast NothingStale ([], .init) events := by
  suffices hrun : ∀ (past : List Handover) (s : CallState SymExpr), EnteredOnce s.stack →
      ResultAwaited past s.stack → Machine.Along CallState.step NoCallback s events →
        Machine.Along CallState.stepWithPast NothingStale (past, s) events from
    hrun [] .init trivial trivial h
  clear h
  induction events with
  | nil => exact fun _ _ _ _ _ ↦ trivial
  | cons event events ih =>
    intro past s hentered hawaited hevents
    obtain ⟨hnext, hnextAwaited⟩ := hawaited.step hentered hevents.1
    exact ⟨hawaited.nothingStale hevents.1, ih _ _ hnext hnextAwaited hevents.2⟩

/-- Reading a byte of the input. -/
def Evaluation.inputByte (offset : SizeT) : Evaluation SymExpr ρ where
  apply _ := (.bv 8 (ρ offset.toNat), some (Backend.symGetInputByte offset))
  agrees _ _ e he := by
    rw [← Option.some.inj he]
    exact Backend.eval_inputByte ρ offset

/-- The functions of the runs below: an instrumented `main`, an instrumented function of one
argument, and one without instrumentation that calls back, as `qsort` does. -/
def mainFunction : Function := ⟨true, true, false, []⟩

def callback : Function := ⟨true, false, false, [true]⟩

def opaqueFunction : Function := ⟨false, false, false, [true]⟩

/-- `main` passes a byte of the input to an instrumented function and uses what it returns. -/
def directCall (ρ : Input) : List (CallEvent Z3Ast ρ) :=
  [.externalCall mainFunction [], .evaluate (.inputByte 0), .call callback [0] true, .ret (some 0)]

theorem expressionPassing_directCall : ExpressionsAgree (directCall fun _ ↦ 5) := by
  refine (expressionPassing_iff _ ?_).mpr ⟨?_, trivial, trivial, trivial, trivial⟩
  · decide
  · exact fun _ _ _ hmain ↦ absurd rfl hmain

/-- `main` passes a byte of the input to an opaque function, which calls back with another value:
the callback finds the expression of the byte. -/
def staleParameter (ρ : Input) : List (CallEvent Z3Ast ρ) :=
  [.externalCall mainFunction [], .evaluate (.inputByte 0), .call opaqueFunction [0] false,
    .externalCall callback [.bv 8 7]]

/-- The callback returns a byte of the input, and the opaque function then returns another value:
`main` finds the expression of the byte. -/
def staleResult (ρ : Input) : List (CallEvent Z3Ast ρ) :=
  [.externalCall mainFunction [], .evaluate (.inputByte 0), .call opaqueFunction [0] true,
    .externalCall callback [.bv 8 0], .ret (some 0), .externalReturn (some (.bv 8 7))]

theorem not_expressionsAgree :
    ¬ExpressionsAgree (staleParameter fun _ ↦ 0) ∧ ¬ExpressionsAgree (staleResult fun _ ↦ 0) := by
  have hbyte : Backend.eval (fun _ ↦ 0) (Backend.symGetInputByte 0 : Z3Ast) ≠ .bv 8 7 := by decide
  refine ⟨fun h ↦ hbyte ?_, fun h ↦ hbyte ?_⟩
  · exact h [(.bv 8 7, some (Backend.symGetInputByte 0))] (List.mem_of_getElem? (i := 3) rfl) _
      List.mem_cons_self _ rfl
  · exact h [(.bv 8 7, some (Backend.symGetInputByte 0))] (List.mem_of_getElem? (i := 5) rfl) _
      List.mem_cons_self _ rfl

end Adacc
