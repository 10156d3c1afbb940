import Adacc.Compiler.CallProtocol

/-!
# Passing any number of arguments

In a program of instrumented functions only, the caller fills the slot of every argument and the
callee reads the slot of every formal, in one step of the machine of `CallProtocol`. Here the
question is not whether expressions agree with values but whether they are the same on both sides,
whatever they are.

Slots have numbers of eight bits, so there are `kMaxFunctionArguments = 256` of them, and argument
`i` goes into slot `i % 256`. A call of more arguments fills some slots again; what a formal gets is
the expression of the last argument in its slot (`getParameter_setParameterExpressions`).
`passing_iff` says that this is all that can go wrong.
-/

namespace Adacc

open SmtLib TraverseOption

/-! ## Sharing slots -/

/-- The last of `n` arguments in the slot of argument `i`. -/
def lastInSlot (n i : ℕ) : ℕ := n - 1 - (n - 1 - i) % 256

private theorem lastInSlot_lt {n i : ℕ} (hi : i < n) : lastInSlot n i < n := by
  unfold lastInSlot
  omega

/-- As long as there are enough slots, no argument shares its slot. -/
theorem lastInSlot_of_le {n i : ℕ} (hn : n ≤ 256) (hi : i < n) : lastInSlot n i = i := by
  unfold lastInSlot
  omega

private theorem lastInSlot_succ {n i : ℕ} (hi : i < n) (h : UInt8.ofNat n ≠ UInt8.ofNat i) :
    lastInSlot (n + 1) i = lastInSlot n i := by
  have hmod : n % 256 ≠ i % 256 := by
    intro hmod
    refine h (UInt8.toNat_inj.mp ?_)
    rwa [UInt8.toNat_ofNat', UInt8.toNat_ofNat']
  unfold lastInSlot
  omega

private theorem lastInSlot_succ_self {n i : ℕ} (hi : i < n + 1)
    (h : UInt8.ofNat n = UInt8.ofNat i) : lastInSlot (n + 1) i = n := by
  have hmod := congrArg UInt8.toNat h
  rw [UInt8.toNat_ofNat', UInt8.toNat_ofNat'] at hmod
  unfold lastInSlot
  omega

section Slots

variable {SymExpr : Type}

private theorem setParameterExpressions_concat (argNo : ℕ) (args : List (Held SymExpr))
    (arg : Held SymExpr) (slots : Slots SymExpr) :
    setParameterExpressions argNo (args ++ [arg]) slots
      = (setParameterExpressions argNo args slots).symSetParameterExpression
          (UInt8.ofNat (argNo + args.length)) arg.2 := by
  induction args generalizing argNo slots with
  | nil => rfl
  | cons first args ih =>
    rw [List.cons_append, setParameterExpressions, ih, setParameterExpressions, List.length_cons,
      Nat.add_assoc, Nat.add_comm 1]

/-- A slot holds the expression of the last argument that has been put there. -/
theorem getParameter_setParameterExpressions {args : List (Held SymExpr)} {i : ℕ}
    (hi : i < args.length) {arg : Held SymExpr} (harg : args[lastInSlot args.length i]? = some arg)
    (slots : Slots SymExpr) :
    (setParameterExpressions 0 args slots).symGetParameterExpression (UInt8.ofNat i) = arg.2 := by
  induction args using List.reverseRecOn generalizing arg with
  | nil => exact absurd hi (Nat.not_lt_zero i)
  | append_singleton args last ih =>
    rw [List.length_append, List.length_singleton] at hi harg
    rw [setParameterExpressions_concat, Nat.zero_add]
    by_cases hslot : UInt8.ofNat args.length = UInt8.ofNat i
    · rw [lastInSlot_succ_self hi hslot, List.getElem?_concat_length, Option.some.injEq] at harg
      rw [hslot, ← harg]
      exact Function.update_self _ _ _
    · have hlt : i < args.length :=
        (Nat.lt_succ_iff_lt_or_eq.mp hi).resolve_right fun heq ↦ hslot (heq ▸ rfl)
      rw [lastInSlot_succ hlt hslot, List.getElem?_append_left (lastInSlot_lt hlt)] at harg
      exact (Function.update_of_ne (Ne.symm hslot) _ _).trans (ih hlt harg)

/-- What the callee holds for a formal with users. -/
theorem getElem?_getParameterExpressions (slots : Slots SymExpr) {argNo i : ℕ} {formals : List Bool}
    {values : List Value} {value : Value} (hused : formals[i]? = some true)
    (hvalue : values[i]? = some value) :
    (getParameterExpressions slots argNo formals values)[i]?
      = some (value, slots.symGetParameterExpression (UInt8.ofNat (argNo + i))) := by
  induction formals generalizing argNo i values with
  | nil => cases hused
  | cons used formals ih =>
    cases values with
    | nil => cases hvalue
    | cons v values =>
      rw [getParameterExpressions]
      cases i with
      | zero =>
        rw [List.getElem?_cons_zero, Option.some.injEq] at hused hvalue ⊢
        rw [hused, hvalue, if_pos rfl, Nat.add_zero]
      | succ i =>
        rw [List.getElem?_cons_succ] at hused hvalue ⊢
        rw [ih hused hvalue, Nat.add_assoc, Nat.add_comm 1]

end Slots

/-! ## Programs of instrumented functions -/

/-- What the running activation does next. What it computes is arbitrary. -/
inductive InstrumentedEvent (SymExpr : Type)
  | evaluate (f : List (Held SymExpr) → Held SymExpr)
  | call (callee : {F : Function // F.instrumented = true}) (operands : List ℕ) (resultUsed : Bool)
  | ret (operand : Option ℕ)

/-- What crosses a call or a return, as it is held on both sides. -/
inductive Transfer (SymExpr : Type)
  | arguments (callee : Function) (actuals obtained : List (Held SymExpr))
  | result (stored : Held SymExpr) (obtained : List (Held SymExpr))

section Machine

variable {SymExpr : Type}

/-- The callee obtains for its used formals what the caller holds, and the caller obtains for the
result what the callee has stored. -/
def Transfer.Exact : Transfer SymExpr → Prop
  | .arguments callee actuals obtained =>
    callee.isMain = false →
      ∀ i : ℕ, callee.args[i]? = some true → obtained[i]? = actuals[i]?
  | .result stored obtained => obtained = [stored]

namespace CallState

variable (s : CallState SymExpr)

/-- A call, with the arguments on both sides. -/
def passArguments (callee : Function) (operands : List ℕ) (resultUsed : Bool)
    (a : Activation SymExpr) : CallState SymExpr × Option (Transfer SymExpr) :=
  let (s', obtained) := s.call callee operands resultUsed a
  match operands.mapM (a.held[·]?) with
  | some actuals =>
    if a.function.instrumented ∧ callee.args.length ≤ actuals.length then
      (s', some (.arguments callee actuals obtained))
    else (s', none)
  | none => (s', none)

/-- A return, with the result on both sides if it is used. -/
def passResult (operand : Option ℕ) (a : Activation SymExpr) :
    CallState SymExpr × Option (Transfer SymExpr) :=
  let (s', obtained) := s.ret operand a
  match s.stack, operand.bind (a.held[·]?) with
  | _ :: caller :: _, some stored =>
    if a.function.instrumented ∧ ¬a.function.void ∧ caller.function.instrumented ∧ a.resultUsed then
      (s', some (.result stored obtained))
    else (s', none)
  | _, _ => (s', none)

/-- One step of the running activation. -/
def pass (event : InstrumentedEvent SymExpr) : CallState SymExpr × Option (Transfer SymExpr) :=
  match s.stack with
  | [] => (s, none)
  | a :: stack =>
    match event with
    | .evaluate f => ({ s with stack := { a with held := a.held ++ [f a.held] } :: stack }, none)
    | .call callee operands resultUsed => s.passArguments callee operands resultUsed a
    | .ret operand => s.passResult operand a

/-- The last argument in the slot of a used formal has the same expression as the formal's own. -/
def KeepsArguments (event : InstrumentedEvent SymExpr) : Prop :=
  match s.stack, event with
  | a :: _, .call callee operands _ =>
    a.function.instrumented → callee.1.isMain = false →
      ∀ actuals, operands.mapM (a.held[·]?) = some actuals →
        callee.1.args.length ≤ actuals.length → ∀ i : ℕ, callee.1.args[i]? = some true →
          actuals[lastInSlot actuals.length i]?.map Prod.snd = actuals[i]?.map Prod.snd
  | _, _ => True

end CallState

/-! ## One step -/

private theorem exact_arguments_iff {callee : Function} {actuals : List (Held SymExpr)}
    (hlen : callee.args.length ≤ actuals.length) (resultUsed : Bool) (slots : Slots SymExpr)
    (stack : List (Activation SymExpr)) (hinstrumented : callee.instrumented = true) :
    (Transfer.arguments callee actuals
        (CallState.enter callee (actuals.map Prod.fst) resultUsed
          ⟨handleFunctionCall actuals resultUsed slots, stack⟩).2).Exact ↔
      (callee.isMain = false → ∀ i : ℕ, callee.args[i]? = some true →
        actuals[lastInSlot actuals.length i]?.map Prod.snd = actuals[i]?.map Prod.snd) := by
  dsimp only [Transfer.Exact]
  refine forall_congr' fun hmain ↦ forall₂_congr fun i hused ↦ ?_
  have hi : i < actuals.length := (List.getElem?_eq_some_iff.mp hused).1.trans_le hlen
  have hactual : actuals[i]? = some actuals[i] := List.getElem?_eq_getElem hi
  have hlt := lastInSlot_lt hi
  have hlast : actuals[lastInSlot actuals.length i]? = some actuals[lastInSlot actuals.length i] :=
    List.getElem?_eq_getElem hlt
  have hvalue : (actuals.map Prod.fst)[i]? = some actuals[i].1 := by
    rw [List.getElem?_map, hactual, Option.map_some]
  have hobtained :
      (CallState.enter callee (actuals.map Prod.fst) resultUsed
          ⟨handleFunctionCall actuals resultUsed slots, stack⟩).2[i]?
        = some (actuals[i].1, actuals[lastInSlot actuals.length i].2) := by
    dsimp only [CallState.enter]
    rw [if_pos hinstrumented, symbolizeFunctionArguments,
      if_neg (hmain ▸ Bool.false_ne_true), getElem?_getParameterExpressions _ hused hvalue,
      functionArguments_handleFunctionCall, Nat.zero_add,
      getParameter_setParameterExpressions hi hlast slots]
  rw [hobtained, hlast, hactual, Option.map_some, Option.map_some, Option.some.injEq,
    Option.some.injEq, Prod.ext_iff]
  exact and_iff_right rfl

namespace CallState

private theorem passArguments_exact_iff (slots : Slots SymExpr) (a : Activation SymExpr)
    (stack : List (Activation SymExpr)) (callee : {F : Function // F.instrumented = true})
    (operands : List ℕ) (resultUsed : Bool) :
    (∀ t, (passArguments ⟨slots, a :: stack⟩ callee operands resultUsed a).2 = some t → t.Exact) ↔
      KeepsArguments ⟨slots, a :: stack⟩ (.call callee operands resultUsed) := by
  unfold passArguments call KeepsArguments
  dsimp only
  cases hactuals : operands.mapM (a.held[·]?) with
  | none => exact iff_of_true (fun t ht ↦ nomatch ht) fun _ _ actuals h ↦ nomatch h
  | some actuals =>
    dsimp only
    by_cases hcall : a.function.instrumented = true ∧ callee.1.args.length ≤ actuals.length
    · rw [if_pos hcall, if_pos hcall]
      simp only [Option.some.injEq, forall_eq', hcall.1, hcall.2, true_imp_iff]
      exact exact_arguments_iff hcall.2 resultUsed slots (a :: stack) callee.2
    · rw [if_neg hcall, if_neg hcall]
      refine iff_of_true (fun t ht ↦ nomatch ht) fun ha _ actuals' heq hlen ↦ absurd ⟨ha, ?_⟩ hcall
      rwa [Option.some.inj heq]

/-- The slot of the result is read right after it has been filled. -/
theorem passResult_exact (slots : Slots SymExpr) (a : Activation SymExpr)
    (stack : List (Activation SymExpr)) (operand : Option ℕ) {t : Transfer SymExpr}
    (ht : (passResult ⟨slots, a :: stack⟩ operand a).2 = some t) : t.Exact := by
  unfold passResult at ht
  dsimp only at ht
  split at ht
  · next callee caller rest stored hstack hstored =>
    obtain ⟨rfl, rfl⟩ := List.cons.inj hstack
    split at ht
    · next hused =>
      obtain ⟨ha, hvoid, hcaller, hresult⟩ := hused
      obtain ⟨i, rfl, hi⟩ := Option.bind_eq_some_iff.mp hstored
      rw [← Option.some.inj ht, Transfer.Exact]
      simp [ret, leave, hi, ha, hvoid, hcaller, hresult, Slots.symGetReturnExpression,
        Slots.symSetReturnExpression]
    · cases ht
  · cases ht

private theorem pass_exact_iff (s : CallState SymExpr) (event : InstrumentedEvent SymExpr) :
    (∀ t, (s.pass event).2 = some t → t.Exact) ↔ s.KeepsArguments event := by
  rcases s with ⟨slots, - | ⟨a, stack⟩⟩
  · exact iff_of_true (fun t ht ↦ nomatch ht) trivial
  cases event with
  | evaluate f => exact iff_of_true (fun t ht ↦ nomatch ht) trivial
  | call callee operands resultUsed =>
    exact passArguments_exact_iff slots a stack callee operands resultUsed
  | ret operand => exact iff_of_true (fun t ht ↦ passResult_exact slots a stack operand ht) trivial

/-- Calls of at most 256 arguments keep them. -/
theorem keepsArguments_of_le (s : CallState SymExpr) {event : InstrumentedEvent SymExpr}
    (h : ∀ callee operands resultUsed, event = .call callee operands resultUsed →
      operands.length ≤ 256) : s.KeepsArguments event := by
  rcases s with ⟨slots, - | ⟨a, stack⟩⟩
  · trivial
  cases event with
  | evaluate f => trivial
  | ret operand => trivial
  | call callee operands resultUsed =>
    intro _ _ actuals hactuals hlen i hused
    have hn : actuals.length ≤ 256 := length_of_mapM hactuals ▸ h callee operands resultUsed rfl
    rw [lastInSlot_of_le hn ((List.getElem?_eq_some_iff.mp hused).1.trans_le hlen)]

end CallState

/-- In every run of instrumented functions, all expressions arrive exactly if no call puts different
expressions into the slot of a used formal. -/
theorem passing_iff (s : CallState SymExpr) (events : List (InstrumentedEvent SymExpr)) :
    (∀ t, some t ∈ (Machine.run CallState.pass s events).2 → t.Exact) ↔
      Machine.Along CallState.pass CallState.KeepsArguments s events :=
  Machine.run_some_iff (I := fun _ ↦ True) (R := fun _ ↦ True)
    (fun s event _ _ ↦ s.pass_exact_iff event) (fun _ _ _ _ _ ↦ trivial) trivial fun _ _ ↦ trivial

end Machine

/-! ## Too many arguments -/

/-- A function of 257 arguments. -/
def manyArguments : {F : Function // F.instrumented = true} :=
  ⟨⟨true, false, true, List.replicate 257 true⟩, rfl⟩

/-- `main` holds an input byte and a constant. -/
def byteAndConstant : CallState Z3Ast :=
  ⟨.init, [⟨mainFunction, [(.bv 8 0, some (.var 0)), (.bv 8 0, none)], false⟩]⟩

/-- `main` passes the byte, and then the constant 256 times. -/
def passMany : List (InstrumentedEvent Z3Ast) :=
  [.call manyArguments (0 :: List.replicate 256 1) false]

/-- The first formal gets the expression of the last argument. -/
theorem not_passing :
    ¬ ∀ t, some t ∈ (Machine.run CallState.pass byteAndConstant passMany).2 → t.Exact := by
  intro h
  have hexact := (byteAndConstant.pass_exact_iff
    (.call manyArguments (0 :: List.replicate 256 1) false)).mp
    fun t ht ↦ h t (by rw [passMany, Machine.run_cons, ht]; exact List.mem_cons_self)
  let held : List (Held Z3Ast) := [(.bv 8 0, some (.var 0)), (.bv 8 0, none)]
  have hmap (n : ℕ) : (0 :: List.replicate n 1).mapM (held[·]?)
      = some ((.bv 8 0, some (.var 0)) :: List.replicate n (.bv 8 0, none)) := by
    have hone : held[1]? = some (.bv 8 0, none) := rfl
    exact mapM_cons_eq_some_iff.mpr ⟨_, _, rfl, mapM_replicate hone n, rfl⟩
  have hlen : manyArguments.1.args.length
      ≤ (((.bv 8 0, some (.var 0)) : Held Z3Ast) :: List.replicate 256 (.bv 8 0, none)).length := by
    rw [List.length_cons, List.length_replicate, manyArguments, List.length_replicate]
  have hused : manyArguments.1.args[0]? = some true := by
    rw [manyArguments, List.getElem?_replicate]
    rfl
  have hsame := hexact rfl rfl _ (hmap 256) hlen 0 hused
  rw [List.length_cons, List.length_replicate, show lastInSlot (256 + 1) 0 = 255 + 1 from rfl,
    List.getElem?_cons_succ, List.getElem?_replicate, List.getElem?_cons_zero] at hsame
  exact absurd hsame (by decide)

end Adacc
