import Adacc.Foundation.Machine
import Adacc.SimpleBackend.Z3Context
import Mathlib.Tactic.Ring

/-!
# Reference counts of the simple backend

The runtime takes a reference to every expression that it holds: in `allocatedExpressions`, as a
global constant and in the cache of input bytes. For the builders the counters say exactly in how
many places an expression is held (`Orderly`), whatever is shared between them.

Two calls take references that they never drop. `_sym_push_path_constraint` calls `Z3_inc_ref` on
the constraint that it asserts, once more than on the alternative, and has no call of `Z3_dec_ref`
for it. `_sym_collect_garbage` takes expressions out of `allocatedExpressions` and keeps their
references, so that nothing is ever freed. Nothing makes up for such a reference later, so the
counters are right exactly as long as no such call has been made (`balanced_iff`).
-/

namespace Adacc.SimpleBackend

open ReferenceCounting

/-- How often the runtime holds an expression: in `allocatedExpressions`, in global constants and in
the cache of input bytes. -/
def Runtime.holders (s : Runtime) (e : Ast) : ℕ :=
  (if e ∈ s.allocatedExpressions then 1 else 0) + globals.count e + s.stdinBytes.count (some e)

/-- The references that are counted and not held. -/
def Runtime.excess (s : Runtime) (e : Ast) : ℤ := refs s.calls e - s.holders e

section Calls

variable (s : Runtime) (e t : Ast)

@[simp] theorem excess_mk : (mk t s).2.excess e = s.excess e := rfl

@[simp] theorem excess_z3Simplify (simplify : Ast → Ast) :
    (z3Simplify simplify t s).2.excess e = s.excess e := rfl

@[simp] theorem excess_isEqAst (a b : Ast) : (isEqAst a b s).2.excess e = s.excess e := rfl

@[simp] theorem excess_solverAssert : (solverAssert t s).2.excess e = s.excess e := rfl

@[simp] theorem excess_incRef : (incRef t s).2.excess e = s.excess e + if e = t then 1 else 0 :=
  add_sub_right_comm _ _ _

@[simp] theorem excess_decRef : (decRef t s).2.excess e = s.excess e - if e = t then 1 else 0 :=
  sub_right_comm _ _ _

@[simp] theorem excess_registerExpression :
    (registerExpression t s).2.excess e = s.excess e := by
  rw [run_registerExpression]
  dsimp only
  split
  · rfl
  · next h =>
    simp only [Runtime.excess, Runtime.holders, refs, Finset.mem_insert]
    by_cases he : e = t
    · subst he
      simp [h]
      omega
    · simp [he]

private theorem holders_registerExpression_le : s.holders e ≤
    (registerExpression t s).2.holders e := by
  rw [run_registerExpression]
  dsimp only
  split
  · exact le_rfl
  · next h =>
    simp only [Runtime.holders, Finset.mem_insert]
    by_cases he : e = t
    · simp [he, h]
    · simp [he]

theorem holders_registerExpression_pos : 0 < (registerExpression t s).2.holders t := by
  rw [run_registerExpression]
  dsimp only
  split
  · next h => simp [Runtime.holders, h]
  · simp [Runtime.holders]

@[simp] theorem excess_buildVariable (name : List Char) (bits : UInt8) :
    (buildVariable name bits s).2.excess e
      = s.excess e + if e = (buildVariable name bits s).1 then 1 else 0 := by
  simp only [buildVariable, run_bind, run_pure, fst_mk, excess_decRef, excess_incRef, excess_mk]
  rw [add_right_comm, add_sub_cancel_right]
  rfl

/-- A new entry of the cache is a place. -/
theorem holders_cacheByte (offset : SizeT) :
    (s.cacheByte offset t).holders e = s.holders e + if e = t then 1 else 0 := by
  have hfilling : (List.replicate (offset.toNat - s.stdinBytes.length) none).count (some e) = 0 :=
    List.count_eq_zero.mpr fun h ↦ nomatch List.eq_of_mem_replicate h
  have hnew : [some t].count (some e) = if e = t then 1 else 0 := by
    rcases eq_or_ne e t with rfl | h
    · simp
    · simp [h, h.symm]
  rw [Runtime.holders, Runtime.cacheByte, List.count_append, List.count_append, hfilling, hnew,
    add_zero, ← add_assoc, Runtime.holders]

private theorem excess_cacheByte (offset : SizeT) :
    (s.cacheByte offset t).excess e = s.excess e - if e = t then 1 else 0 := by
  rw [Runtime.excess, holders_cacheByte, Nat.cast_add, ← sub_sub, Nat.cast_ite, Nat.cast_one,
    Nat.cast_zero]
  rfl

end Calls

section Orderly

variable {α β : Type}

/-- A function that leaves references and places in balance, and gives up no place. -/
structure Orderly (m : RuntimeM α) : Prop where
  excess_eq : ∀ s e, (m s).2.excess e = s.excess e
  holders_le : ∀ s e, s.holders e ≤ (m s).2.holders e

theorem orderly_pure (a : α) : Orderly (pure a) := ⟨fun _ _ ↦ rfl, fun _ _ ↦ le_rfl⟩

theorem orderly_mk (t : Ast) : Orderly (mk t) := ⟨fun _ _ ↦ rfl, fun _ _ ↦ le_rfl⟩

theorem Orderly.bind {m : RuntimeM α} {f : α → RuntimeM β} (hm : Orderly m)
    (hf : ∀ a, Orderly (f a)) : Orderly (m >>= f) where
  excess_eq s e := by rw [run_bind, (hf _).excess_eq, hm.excess_eq]
  holders_le s e := (hm.holders_le s e).trans ((hf _).holders_le _ e)

theorem Orderly.map {m : RuntimeM α} (f : α → β) (hm : Orderly m) : Orderly (f <$> m) :=
  ⟨hm.1, hm.2⟩

theorem orderly_build (t : Ast) : Orderly (build t) where
  excess_eq _ e := excess_registerExpression _ e t
  holders_le s e := holders_registerExpression_le (mk t s).2 e t

theorem orderly_buildWithSort (sort : Ast) (t : Ast → Ast) : Orderly (buildWithSort sort t) where
  excess_eq s e := by simp [buildWithSort, (orderly_build _).excess_eq]
  holders_le s := (orderly_build (t sort)).holders_le (incRef sort (mk sort s).2).2

theorem orderly_symBuildInteger (value : BitVec 64) (bits : UInt8) :
    Orderly (symBuildInteger value bits) :=
  orderly_buildWithSort _ _

/-- The new entry of the cache takes over the reference that `build_variable` has taken. -/
theorem orderly_symGetInputByte (offset : SizeT) : Orderly (symGetInputByte offset) := by
  constructor
  · intro s e
    cases h : s.stdinBytes[offset.toNat]? with
    | some byte => rw [symGetInputByte_of_some h]
    | none =>
      rw [symGetInputByte_of_none h]
      dsimp only
      rw [excess_cacheByte, excess_buildVariable, add_sub_cancel_right]
  · intro s e
    cases h : s.stdinBytes[offset.toNat]? with
    | some byte => rw [symGetInputByte_of_some h]
    | none =>
      rw [symGetInputByte_of_none h]
      exact (Nat.le_add_right _ _).trans_eq (holders_cacheByte _ _ _ _).symm

private theorem orderly_buildUnordered {ordered : Ast → Ast → RuntimeM Ast}
    (h : ∀ a b, Orderly (ordered a b)) (a b : Ast) : Orderly (buildUnordered ordered a b) :=
  (orderly_mk _).bind fun _ ↦ (orderly_mk _).bind fun _ ↦ (h a b).bind fun _ ↦ orderly_build _

private theorem orderly_symBuildFloatUnordered (a b : Ast) : Orderly (symBuildFloatUnordered a b) :=
  (orderly_mk _).bind fun _ ↦ (orderly_mk _).bind fun _ ↦ orderly_build _

private theorem orderly_symBuildFloatOrderedNotEqual (a b : Ast) :
    Orderly (symBuildFloatOrderedNotEqual a b) :=
  (orderly_build _).bind fun _ ↦ orderly_build _

theorem BuilderCall.orderly (fpaValue : Bool → BitVec 64 → BitVec 64) (c : BuilderCall) :
    Orderly (c.run fpaValue) := by
  cases c with
  | nullPointer | true | false | bool => exact (orderly_pure _).map some
  | neg | binary | fpAdd | fpSub | fpMul | fpDiv | fpRem | fpAbs | not | boolAnd | boolOr | sext
  | zext | trunc | concatHelper | extractHelper => exact (orderly_build _).map some
  | integer | float | intToFloat | floatToFloat => exact (orderly_buildWithSort _ _).map some
  | notEqual | floatToSignedInteger | floatToUnsignedInteger =>
    exact ((orderly_mk _).bind fun _ ↦ orderly_build _).map some
  | floatOrderedNotEqual a b => exact (orderly_symBuildFloatOrderedNotEqual a b).map some
  | floatUnordered a b => exact (orderly_symBuildFloatUnordered a b).map some
  | floatOrdered a b =>
    exact ((orderly_symBuildFloatUnordered a b).bind fun _ ↦ orderly_build _).map some
  | floatUnorderedNotEqual a b =>
    exact (orderly_buildUnordered orderly_symBuildFloatOrderedNotEqual a b).map some
  | floatUnorderedGreaterThan | floatUnorderedGreaterEqual | floatUnorderedLessThan
  | floatUnorderedLessEqual | floatUnorderedEqual =>
    exact (orderly_buildUnordered (fun _ _ ↦ orderly_build _) _ _).map some
  | integer128 | boolToBits =>
    exact ((orderly_buildWithSort _ _).bind fun _ ↦
      (orderly_buildWithSort _ _).bind fun _ ↦ orderly_build _).map some
  | getInputByte offset => exact orderly_symGetInputByte offset
  | bitsToFloat expr toDouble =>
    cases expr with
    | none => exact orderly_pure none
    | some expr => exact (orderly_buildWithSort _ _).bind fun _ ↦ orderly_pure _
  | floatToBits expr =>
    cases expr with
    | none => exact orderly_pure none
    | some expr => exact (orderly_build _).bind fun _ ↦ orderly_pure _

/-- A function that returns an expression that is held. -/
def Retains (m : RuntimeM Ast) : Prop := ∀ s, 0 < (m s).2.holders (m s).1

theorem retains_build (t : Ast) : Retains (build t) := by
  intro s
  rw [fst_build]
  exact holders_registerExpression_pos (mk t s).2 t

theorem retains_buildWithSort (sort : Ast) (t : Ast → Ast) : Retains (buildWithSort sort t) := by
  intro s
  rw [fst_buildWithSort]
  exact holders_registerExpression_pos (mk (t sort) (incRef sort (mk sort s).2).2).2 (t sort)

private theorem retains_pure {t : Ast} (h : t ∈ globals) : Retains (pure t) := fun _ ↦
  Nat.add_pos_left (Nat.add_pos_right _ (List.count_pos_iff.mpr h)) _

theorem Retains.bind {m : RuntimeM α} {f : α → RuntimeM Ast} (hf : ∀ a, Retains (f a)) :
    Retains (m >>= f) := fun s ↦ hf _ (m s).2

private theorem holders_symGetInputByte_pos {s : Runtime} {offset : SizeT} {t : Ast}
    (h : (symGetInputByte offset s).1 = some t) :
    0 < (symGetInputByte offset s).2.holders t := by
  cases hbyte : s.stdinBytes[offset.toNat]? with
  | some byte =>
    rw [symGetInputByte_of_some hbyte] at h ⊢
    have hmem : some t ∈ s.stdinBytes := h ▸ List.mem_of_getElem? hbyte
    exact Nat.add_pos_right _ (List.count_pos_iff.mpr hmem)
  | none =>
    rw [symGetInputByte_of_none hbyte] at h ⊢
    dsimp only at h ⊢
    rw [Option.some.inj h, holders_cacheByte, if_pos rfl]
    exact Nat.succ_pos _

/-- What a builder returns is held. -/
theorem BuilderCall.retains (fpaValue : Bool → BitVec 64 → BitVec 64) (c : BuilderCall)
    (s : Runtime) {t : Ast} (h : (c.run fpaValue s).1 = some t) :
    0 < (c.run fpaValue s).2.holders t := by
  have hsome : ∀ {m : RuntimeM Ast}, Retains m → ∀ {t}, ((some <$> m) s).1 = some t →
      0 < ((some <$> m) s).2.holders t := fun hm _ h ↦ Option.some.inj h ▸ hm s
  cases c with
  | getInputByte offset => exact holders_symGetInputByte_pos h
  | nullPointer | true | false => exact hsome (retains_pure (by decide)) h
  | bool value => exact hsome (retains_pure (by cases value <;> decide)) h
  | neg | binary | fpAdd | fpSub | fpMul | fpDiv | fpRem | fpAbs | not | boolAnd | boolOr | sext
  | zext | trunc | concatHelper | extractHelper => exact hsome (retains_build _) h
  | integer | float | intToFloat | floatToFloat => exact hsome (retains_buildWithSort _ _) h
  | notEqual | floatOrderedNotEqual | floatOrdered | floatToSignedInteger
  | floatToUnsignedInteger => exact hsome (.bind fun _ ↦ retains_build _) h
  | integer128 | boolToBits | floatUnordered =>
    exact hsome (.bind fun _ ↦ .bind fun _ ↦ retains_build _) h
  | floatUnorderedGreaterThan | floatUnorderedGreaterEqual | floatUnorderedLessThan
  | floatUnorderedLessEqual | floatUnorderedEqual | floatUnorderedNotEqual =>
    exact hsome (.bind fun _ ↦ .bind fun _ ↦ .bind fun _ ↦ retains_build _) h
  | bitsToFloat expr toDouble =>
    cases expr with
    | none => cases h
    | some expr => exact hsome (retains_buildWithSort _ _) h
  | floatToBits expr =>
    cases expr with
    | none => cases h
    | some expr => exact hsome (retains_build _) h

end Orderly

/-! ## Runs -/

/-- A call of the runtime. A collection gets the set that `collectReachableExpressions` returns. -/
inductive Event
  | build (call : BuilderCall)
  | pushPathConstraint (constraint : Option Ast) (taken : Bool)
  | collectGarbage (reachableExpressions : Finset Ast)

section Run

variable (simplify : Ast → Ast) (fpaValue : Bool → BitVec 64 → BitVec 64)
  (garbageCollectionThreshold : ℕ)

/-- The runtime serves a call. -/
def Event.run : Event → RuntimeM (Option Ast)
  | .build call => call.run fpaValue
  | .pushPathConstraint constraint taken => do
    symPushPathConstraint simplify constraint taken
    return none
  | .collectGarbage reachableExpressions => do
    symCollectGarbage garbageCollectionThreshold reachableExpressions
    return none

/-- The step of the machine. -/
def step (s : Runtime) (event : Event) : Runtime × Option Ast :=
  (event.run simplify fpaValue garbageCollectionThreshold s).swap

/-- After `_sym_initialize`. -/
def Runtime.init : Runtime := (symInitialize ⟨[], ∅, []⟩).2

/-- The counter of every expression says in how many places the runtime holds it. -/
def Runtime.Balanced (s : Runtime) : Prop := ∀ e, refs s.calls e = s.holders e

/-- A constraint is pushed only if it is null or turns out constant, and the collector finds nothing
to drop. -/
def Event.Tidy (s : Runtime) : Event → Prop
  | .build _ => True
  | .pushPathConstraint constraint _ =>
    ∀ c ∈ constraint, simplify c = gTrue ∨ simplify c = gFalse
  | .collectGarbage reachableExpressions =>
    s.allocatedExpressions.card < garbageCollectionThreshold ∨
      s.allocatedExpressions ⊆ reachableExpressions

/-- The references that a call takes and never drops. -/
def Event.leak (s : Runtime) : Event → Ast → ℕ
  | .build _, _ => 0
  | .pushPathConstraint none _, _ => 0
  | .pushPathConstraint (some c) taken, e =>
    if simplify c = gTrue ∨ simplify c = gFalse then 0
    else if e = (if taken then simplify c else simplify (.unary .not (simplify c))) then 1
    else 0
  | .collectGarbage reachableExpressions, e =>
    if s.allocatedExpressions.card < garbageCollectionThreshold then 0
    else if e ∈ s.allocatedExpressions ∧ e ∉ reachableExpressions then 1
    else 0

private theorem tidy_iff (s : Runtime) (event : Event) :
    event.Tidy simplify garbageCollectionThreshold s ↔
      ∀ e, event.leak simplify garbageCollectionThreshold s e = 0 := by
  cases event with
  | build => exact iff_of_true trivial fun _ ↦ rfl
  | pushPathConstraint constraint taken =>
    cases constraint with
    | none => exact iff_of_true (fun _ h ↦ nomatch h) fun _ ↦ rfl
    | some c =>
      by_cases h : simplify c = gTrue ∨ simplify c = gFalse
      · simp [Event.Tidy, Event.leak, h]
      · simp [Event.Tidy, Event.leak, h]
  | collectGarbage reachableExpressions =>
    by_cases h : s.allocatedExpressions.card < garbageCollectionThreshold
    · simp [Event.Tidy, Event.leak, h]
    · simp [Event.Tidy, Event.leak, h, Finset.subset_iff]

private theorem excess_symPushPathConstraint (s : Runtime) (constraint : Option Ast) (taken : Bool)
    (e : Ast) :
    (symPushPathConstraint simplify constraint taken s).2.excess e = s.excess e
      + (Event.pushPathConstraint constraint taken).leak simplify garbageCollectionThreshold s
        e := by
  cases constraint with
  | none => simp [symPushPathConstraint, Event.leak]
  | some c =>
    by_cases htrue : simplify c = .leaf .true
    · simp [symPushPathConstraint, Event.leak, gTrue, htrue]
    · by_cases hfalse : simplify c = .leaf .false
      · simp [symPushPathConstraint, Event.leak, gFalse, hfalse]
      · simp [symPushPathConstraint, Event.leak, gTrue, gFalse, htrue, hfalse]
        ring

private theorem excess_symCollectGarbage (s : Runtime) (reachableExpressions : Finset Ast)
    (e : Ast) :
    (symCollectGarbage garbageCollectionThreshold reachableExpressions s).2.excess e = s.excess e
      + (Event.collectGarbage reachableExpressions).leak simplify garbageCollectionThreshold s
        e := by
  by_cases h : s.allocatedExpressions.card < garbageCollectionThreshold
  · simp [symCollectGarbage, Event.leak, h]
  · simp only [symCollectGarbage, run_modify, h, if_false, Runtime.excess, Runtime.holders,
      Event.leak, Finset.mem_filter]
    by_cases hmem : e ∈ s.allocatedExpressions
    · by_cases hreachable : e ∈ reachableExpressions
      · simp [hmem, hreachable]
      · simp [hmem, hreachable]
        ring
    · simp [hmem]

private theorem excess_step (s : Runtime) (event : Event) (e : Ast) :
    (step simplify fpaValue garbageCollectionThreshold s event).1.excess e
      = s.excess e + event.leak simplify garbageCollectionThreshold s e := by
  cases event with
  | build call => exact ((call.orderly fpaValue).excess_eq s e).trans (add_zero _).symm
  | pushPathConstraint constraint taken => exact excess_symPushPathConstraint simplify _ s _ taken e
  | collectGarbage reachableExpressions => exact excess_symCollectGarbage simplify _ s _ e

theorem balanced_iff_excess (s : Runtime) : s.Balanced ↔ ∀ e, s.excess e = 0 :=
  forall_congr' fun _ ↦ sub_eq_zero.symm

theorem balanced_init : Runtime.init.Balanced := by
  rw [balanced_iff_excess]
  intro e
  have hstart : Runtime.excess ⟨[], ∅, []⟩ e = -(globals.count e : ℤ) := by
    simp [Runtime.excess, Runtime.holders, refs]
  have hglobals : (globals.count e : ℤ) = (if e = gRoundingMode then 1 else 0)
      + (if e = gNullPointer then 1 else 0) + (if e = gTrue then 1 else 0)
      + (if e = gFalse then 1 else 0) := by
    simp only [globals, List.count_cons, List.count_nil, beq_iff_eq, @eq_comm _ _ e]
    push_cast
    ring
  simp only [Runtime.init, symInitialize, run_bind, fst_mk, excess_incRef, excess_decRef, excess_mk,
    hstart, hglobals]
  ring

/-- After every call the counters are right, exactly if every call is tidy. -/
theorem balanced_iff (events : List Event) :
    (∀ before, before <+: events →
      (Machine.run (step simplify fpaValue garbageCollectionThreshold) .init before).1.Balanced) ↔
      Machine.Along (step simplify fpaValue garbageCollectionThreshold)
        (Event.Tidy simplify garbageCollectionThreshold) .init events := by
  have hlast : ∀ before,
      (Machine.run (step simplify fpaValue garbageCollectionThreshold) .init before).1.Balanced ↔
        Machine.Along (step simplify fpaValue garbageCollectionThreshold)
          (Event.Tidy simplify garbageCollectionThreshold) .init before := by
    intro before
    refine (Machine.run_iff (I := fun s ↦ ∀ e, 0 ≤ s.excess e) (R := fun _ _ ↦ True) ?_ ?_ ?_
      (.of_forall _ fun _ _ ↦ trivial)).trans (and_iff_right balanced_init)
    · intro s event hs _ e
      rw [excess_step]
      exact add_nonneg (hs e) (Int.natCast_nonneg _)
    · intro s event hs _
      rw [balanced_iff_excess, balanced_iff_excess, tidy_iff, ← forall_and]
      refine forall_congr' fun e ↦ ?_
      rw [excess_step, add_eq_zero_iff_of_nonneg (hs e) (Int.natCast_nonneg _), Nat.cast_eq_zero]
    · exact fun e ↦ ((balanced_iff_excess _).mp balanced_init e).ge
  constructor
  · intro h
    exact (hlast events).mp (h events (List.prefix_refl _))
  · rintro h before ⟨after, rfl⟩
    exact (hlast before).mpr h.of_append

/-- A number, which the collector drops when nothing is reachable. -/
def dropped : List Event := [.build (.integer 7 8), .collectGarbage ∅]

/-- A comparison of two input bytes, pushed as it was taken. -/
def pushed : List Event :=
  let byte (n : ℕ) : Ast := .unary (.const (InputBytes.varName n)) (bvSort 8)
  [.build (.getInputByte 0), .build (.getInputByte 1), .build (.binary .equal (byte 0) (byte 1)),
    .pushPathConstraint (some (.binary (.compare .eq) (byte 0) (byte 1))) true]

/-- Both leave a reference that nothing holds. -/
theorem not_balanced :
    ¬(Machine.run (step id (fun _ value ↦ value) 1) .init dropped).1.Balanced ∧
      ¬(Machine.run (step id (fun _ value ↦ value) 1) .init pushed).1.Balanced := by
  constructor
  · intro h
    have hlost := h (.unary (.numeral 7) (bvSort 8))
    revert hlost
    decide
  · intro h
    have hlost := h (.binary (.compare .eq) (.unary (.const (InputBytes.varName 0)) (bvSort 8))
      (.unary (.const (InputBytes.varName 1)) (bvSort 8)))
    revert hlost
    decide

end Run

end Adacc.SimpleBackend
