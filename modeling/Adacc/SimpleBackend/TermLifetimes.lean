import Adacc.SimpleBackend.ReferenceCounts

/-!
# Lifetimes of terms in the simple backend

A term without references is freed with the next call of Z3, unless it occurs in another one that is
not. Builders that make several terms rely on what they have registered in between, on sorts that
they hold for the time being, and on terms that are passed on at once.

This does not do for the checks `is_nan` of `_sym_build_float_unordered` and of the six unordered
comparisons, which are kept in an array while more calls of Z3 are made. They survive only where an
expression that is held has them in it, or, if no other call comes between, where both are the same
(`BuilderCall.Sheltered`). All else is alive when it is used (`BuilderCall.safe_run`), so a run is
safe exactly if the checks of all its calls are sheltered (`Client.safe_iff`).
-/

namespace Adacc.SimpleBackend

open ReferenceCounting

/-! ## Occurrence -/

/-- A term and everything in it. -/
def Ast.subterms : Ast → List Ast
  | .leaf f => [.leaf f]
  | .unary f a => .unary f a :: a.subterms
  | .binary f a b => .binary f a b :: (a.subterms ++ b.subterms)
  | .ternary f a b c => .ternary f a b c :: (a.subterms ++ (b.subterms ++ c.subterms))

private theorem mem_subterms {t u : Ast} : t ∈ u.subterms ↔ Inside Ast.parts t u := by
  induction u with
  | leaf f => rw [inside_iff]; simp [Ast.subterms, Ast.parts]
  | unary f a iha => rw [inside_iff]; simp [Ast.subterms, Ast.parts, iha]
  | binary f a b iha ihb => rw [inside_iff]; simp [Ast.subterms, Ast.parts, iha, ihb]
  | ternary f a b c iha ihb ihc => rw [inside_iff]; simp [Ast.subterms, Ast.parts, iha, ihb, ihc]

instance : DecidableRel (Inside Ast.parts) := fun _ _ ↦ decidable_of_iff _ mem_subterms

/-! ## Single functions -/

/-- `Z3_mk_fpa_is_nan` -/
abbrev isNan (a : Ast) : Ast := .unary .fpaIsNan a

namespace Runtime

/-- The term is not freed. -/
abbrev Alive (s : Runtime) (t : Ast) : Prop := ReferenceCounting.Alive Ast.parts s.calls t

/-- The term occurs in one with a reference. -/
abbrev Kept (s : Runtime) (t : Ast) : Prop := ReferenceCounting.Kept Ast.parts s.calls t

/-- Every term passed to Z3 was alive. -/
abbrev Safe (s : Runtime) : Prop := ReferenceCounting.Safe Ast.parts s.calls

/-- No place is without a reference. -/
def Covered (s : Runtime) : Prop := ∀ e, 0 ≤ s.excess e

end Runtime

section Functions

variable {s : Runtime} {t u : Ast}

theorem Runtime.Covered.refs_pos (hs : s.Covered) (h : 0 < s.holders t) : 0 < refs s.calls t := by
  have hexcess := hs t
  rw [Runtime.excess] at hexcess
  omega

theorem Runtime.Covered.of_orderly {α : Type} {m : RuntimeM α} (hs : s.Covered) (hm : Orderly m) :
    (m s).2.Covered := fun e ↦ (hm.excess_eq s e).symm ▸ hs e

theorem Orderly.refs_le {α : Type} {m : RuntimeM α} (hm : Orderly m) (s : Runtime) (t : Ast) :
    refs s.calls t ≤ refs (m s).2.calls t := by
  have hexcess := hm.excess_eq s t
  have hholders := hm.holders_le s t
  rw [Runtime.excess, Runtime.excess] at hexcess
  omega

theorem safe_mk : (mk t s).2.Safe ↔ (∀ p ∈ t.parts, s.Alive p) ∧ s.Safe := Iff.rfl

theorem Runtime.Covered.refs_nonneg (hs : s.Covered) (t : Ast) : 0 ≤ refs s.calls t := by
  have hexcess := hs t
  rw [Runtime.excess] at hexcess
  omega

private theorem alive_mk : (mk t s).2.Alive u ↔ s.Kept u ∨ Inside Ast.parts u t := alive_apply

private theorem safe_incRef : (incRef t s).2.Safe ↔ s.Alive t ∧ s.Safe :=
  and_congr_left' List.forall_mem_singleton

private theorem safe_decRef : (decRef t s).2.Safe ↔ s.Alive t ∧ s.Safe :=
  and_congr_left' List.forall_mem_singleton

private theorem refs_incRef_pos (hs : s.Covered) : 0 < refs (incRef t s).2.calls t := by
  have hnonneg := hs.refs_nonneg t
  show 0 < refs (.incRef t :: s.calls) t
  rw [refs, if_pos rfl]
  omega

private theorem refs_le_incRef (u : Ast) : refs s.calls u ≤ refs (incRef t s).2.calls u := by
  show _ ≤ refs (.incRef t :: s.calls) u
  rw [refs]
  split <;> omega

theorem alive_mk_self : (mk t s).2.Alive t := .latest rfl

/-- The new term is the result of the latest call when it gets its reference. -/
theorem safe_build : (build t s).2.Safe ↔ (∀ p ∈ t.parts, s.Alive p) ∧ s.Safe := by
  rw [build, run_bind, run_registerExpression, fst_mk]
  dsimp only
  split
  · exact safe_mk
  · refine (and_iff_right fun p hp ↦ ?_).trans safe_mk
    rw [List.mem_singleton.mp hp]
    exact alive_mk_self

private theorem kept_build (hs : s.Covered) :
    (build t s).2.Kept u ↔ s.Kept u ∨ Inside Ast.parts u t := by
  rw [build, run_bind, run_registerExpression, fst_mk]
  dsimp only
  split
  · next h =>
    have hheld : 0 < s.holders t :=
      Nat.add_pos_left (Nat.add_pos_left (if_pos h ▸ Nat.one_pos) _) _
    exact (or_iff_left_of_imp fun hinside ↦ ⟨t, hs.refs_pos hheld, hinside⟩).symm
  · exact kept_incRef (hs.refs_nonneg t)

/-- Nothing is left alive only because it is the result of the latest call. -/
theorem alive_build (hs : s.Covered) :
    (build t s).2.Alive u ↔ s.Kept u ∨ Inside Ast.parts u t := by
  rw [build, run_bind, run_registerExpression, fst_mk]
  dsimp only
  split
  · exact alive_mk
  · exact alive_incRef.trans (kept_incRef (hs.refs_nonneg t))

/-- What occurs in the new term and is not the new term itself was kept before. -/
theorem kept_of_inside (hne : u ≠ t) (hparts : ∀ p ∈ t.parts, 0 < refs s.calls p)
    (h : Inside Ast.parts u t) : s.Kept u := by
  obtain heq | ⟨p, hp, hinside⟩ := inside_iff.mp h
  · exact absurd heq hne
  · exact ⟨p, hparts p hp, hinside⟩

private theorem kept_build_of_ne (hs : s.Covered) (hne : u ≠ t)
    (hparts : ∀ p ∈ t.parts, 0 < refs s.calls p) : (build t s).2.Kept u ↔ s.Kept u :=
  (kept_build hs).trans (or_iff_left_of_imp (kept_of_inside hne hparts))

private theorem alive_build_of_ne (hs : s.Covered) (hne : u ≠ t)
    (hparts : ∀ p ∈ t.parts, 0 < refs s.calls p) : (build t s).2.Alive u ↔ s.Kept u :=
  (alive_build hs).trans (or_iff_left_of_imp (kept_of_inside hne hparts))

private theorem refs_pos_build (hs : s.Covered) : 0 < refs (build t s).2.calls t :=
  (hs.of_orderly (orderly_build t)).refs_pos (holders_registerExpression_pos (mk t s).2 t)

theorem safe_build_of_counted (h : ∀ p ∈ t.parts, 0 < refs s.calls p) :
    (build t s).2.Safe ↔ s.Safe :=
  safe_build.trans (and_iff_right fun p hp ↦ .counted (h p hp))

/-- The sort has a reference while the term is made. -/
theorem safe_buildWithSort (hs : s.Covered) {sort : Ast} {f : Ast → Ast} (hsort : sort.parts = [])
    (h : ∀ p ∈ (f sort).parts, p = sort ∨ 0 < refs s.calls p) :
    (buildWithSort sort f s).2.Safe ↔ s.Safe := by
  have hmk : (mk sort s).2.Covered := hs.of_orderly (orderly_mk sort)
  have hsortRef : 0 < refs (incRef sort (mk sort s).2).2.calls sort := refs_incRef_pos hmk
  have hparts : ∀ p ∈ (f sort).parts, 0 < refs (incRef sort (mk sort s).2).2.calls p := by
    intro p hp
    rcases h p hp with rfl | hcounted
    · exact hsortRef
    · exact hcounted.trans_le (refs_le_incRef (s := (mk sort s).2) p)
  have hlast : (build (f sort) (incRef sort (mk sort s).2).2).2.Alive sort :=
    .counted (hsortRef.trans_le ((orderly_build _).refs_le _ _))
  have hsafe : (build (f sort) (incRef sort (mk sort s).2).2).2.Safe ↔ s.Safe := by
    rw [safe_build_of_counted hparts, safe_incRef, and_iff_right alive_mk_self, safe_mk, hsort]
    exact and_iff_right fun p hp ↦ absurd hp List.not_mem_nil
  exact safe_decRef.trans ((and_iff_right hlast).trans hsafe)

private theorem safe_buildVariable (hs : s.Covered) (name : List Char) (bits : UInt8) :
    (buildVariable name bits s).2.Safe ↔ s.Safe := by
  have hmk : (mk (bvSort bits) s).2.Covered := hs.of_orderly (orderly_mk _)
  have hsortRef := refs_incRef_pos (t := bvSort bits) hmk
  simp only [buildVariable, run_bind, run_pure, fst_mk, safe_decRef, safe_incRef, safe_mk]
  rw [and_iff_right (.counted (hsortRef.trans_le (refs_le_incRef _))), and_iff_right (.latest rfl),
    and_iff_right, and_iff_right (.latest rfl), and_iff_right]
  · exact fun p hp ↦ absurd hp List.not_mem_nil
  · exact fun p hp ↦ .counted (List.mem_singleton.mp hp ▸ hsortRef)

private theorem safe_symGetInputByte (hs : s.Covered) (offset : SizeT) :
    (symGetInputByte offset s).2.Safe ↔ s.Safe := by
  cases h : s.stdinBytes[offset.toNat]? with
  | some byte => rw [symGetInputByte_of_some h]
  | none =>
    rw [symGetInputByte_of_none h]
    exact safe_buildVariable hs _ 8

end Functions

/-! ## NaN checks -/

section Checks

variable {s : Runtime} {a b : Ast}

theorem forall_mem_pair {P : Ast → Prop} {a b : Ast} : (∀ t ∈ [a, b], P t) ↔ P a ∧ P b := by
  rw [List.forall_mem_cons, List.forall_mem_singleton]

/-- The operands are alive when their checks are made. -/
theorem safe_checks (ha : 0 < refs s.calls a) (hb : 0 < refs s.calls b) :
    (mk (isNan b) (mk (isNan a) s).2).2.Safe ↔ s.Safe := by
  rw [safe_mk, safe_mk, and_iff_right, and_iff_right]
  · exact fun p hp ↦ .counted (List.mem_singleton.mp hp ▸ ha)
  · exact fun p hp ↦ .counted (List.mem_singleton.mp hp ▸ hb)

/-- The second check saves the first one only if it is the same. -/
theorem inside_isNan (hb : 0 < refs s.calls b) :
    s.Kept (isNan a) ∨ Inside Ast.parts (isNan a) (isNan b) ↔ a = b ∨ s.Kept (isNan a) := by
  rw [inside_iff, or_comm]
  constructor
  · rintro ((heq | ⟨p, hp, hinside⟩) | hkept)
    · exact .inl (Ast.unary.inj heq).2
    · exact .inr ⟨b, hb, List.mem_singleton.mp hp ▸ hinside⟩
    · exact .inr hkept
  · rintro (rfl | hkept)
    · exact .inl (.inl rfl)
    · exact .inr hkept

private theorem safe_symBuildFloatUnordered (ha : 0 < refs s.calls a) (hb : 0 < refs s.calls b) :
    (symBuildFloatUnordered a b s).2.Safe ↔ s.Safe ∧ (a = b ∨ s.Kept (isNan a)) := by
  show (build (.binary (.connective .or) (isNan a) (isNan b))
    (mk (isNan b) (mk (isNan a) s).2).2).2.Safe ↔ _
  rw [safe_build, safe_checks ha hb, and_comm, Ast.parts, List.forall_mem_cons,
    List.forall_mem_singleton, and_iff_left alive_mk_self, alive_mk]
  exact and_congr_right' (inside_isNan (s := s) hb)

private theorem safe_symBuildFloatOrdered (hs : s.Covered) (ha : 0 < refs s.calls a)
    (hb : 0 < refs s.calls b) :
    (symBuildFloatOrdered a b s).2.Safe ↔ s.Safe ∧ (a = b ∨ s.Kept (isNan a)) := by
  have hunordered : ∀ p ∈ (Ast.unary .not (symBuildFloatUnordered a b s).1).parts,
      0 < refs (symBuildFloatUnordered a b s).2.calls p := by
    rw [symBuildFloatUnordered, run_bind, run_bind, fst_mk, fst_mk, fst_build]
    exact List.forall_mem_singleton.mpr
      (refs_pos_build ((hs.of_orderly (orderly_mk _)).of_orderly (orderly_mk _)))
  rw [symBuildFloatOrdered, run_bind, safe_build_of_counted hunordered,
    safe_symBuildFloatUnordered ha hb]

/-- What the unordered comparisons need of the ordered ones. -/
structure OrderedSpec (ordered : Ast → Ast → RuntimeM Ast) (s : Runtime) (a b : Ast) : Prop where
  safe : (ordered a b s).2.Safe ↔ s.Safe
  alive_isNan : ∀ x, (ordered a b s).2.Alive (isNan x) ↔ s.Kept (isNan x)

private theorem orderedSpec_symBuildBinary (name : BinaryExprBuilder) (s : Runtime) (hs : s.Covered)
    (ha : 0 < refs s.calls a) (hb : 0 < refs s.calls b) :
    OrderedSpec (symBuildBinary name) s a b := by
  have hparts : ∀ p ∈ (Ast.binary name.z3Name a b).parts, 0 < refs s.calls p :=
    List.forall_mem_cons.mpr ⟨ha, List.forall_mem_singleton.mpr hb⟩
  constructor
  · exact safe_build_of_counted hparts
  · intro x
    exact alive_build_of_ne hs Ast.noConfusion hparts

private theorem orderedSpec_symBuildFloatOrderedNotEqual (s : Runtime) (hs : s.Covered)
    (ha : 0 < refs s.calls a) (hb : 0 < refs s.calls b) :
    OrderedSpec symBuildFloatOrderedNotEqual s a b := by
  have hparts : ∀ p ∈ (Ast.binary .fpaEq a b).parts, 0 < refs s.calls p :=
    List.forall_mem_cons.mpr ⟨ha, List.forall_mem_singleton.mpr hb⟩
  have hequal : (build (.binary .fpaEq a b) s).2.Covered := hs.of_orderly (orderly_build _)
  have hnot : ∀ p ∈ (Ast.unary .not (.binary .fpaEq a b)).parts,
      0 < refs (build (.binary .fpaEq a b) s).2.calls p :=
    List.forall_mem_singleton.mpr (refs_pos_build hs)
  have hrun : symBuildFloatOrderedNotEqual a b s
      = build (.unary .not (.binary .fpaEq a b)) (build (.binary .fpaEq a b) s).2 := by
    rw [symBuildFloatOrderedNotEqual, run_bind, symBuildBinary, fst_build]
    rfl
  constructor
  · rw [hrun]
    exact (safe_build_of_counted hnot).trans (safe_build_of_counted hparts)
  · intro x
    rw [hrun]
    have hne : isNan x ≠ .unary .not (.binary .fpaEq a b) := fun h ↦ nomatch (Ast.unary.inj h).1
    exact (alive_build_of_ne hequal hne hnot).trans (kept_build_of_ne hs Ast.noConfusion hparts)

/-- Both checks have to outlive the ordered comparison. -/
theorem safe_buildUnordered {ordered : Ast → Ast → RuntimeM Ast}
    (hordered : ∀ s : Runtime, s.Covered → 0 < refs s.calls a → 0 < refs s.calls b →
      OrderedSpec ordered s a b)
    (hs : s.Covered) (ha : 0 < refs s.calls a) (hb : 0 < refs s.calls b) :
    (buildUnordered ordered a b s).2.Safe ↔ s.Safe ∧ s.Kept (isNan a) ∧ s.Kept (isNan b) := by
  have h := hordered (mk (isNan b) (mk (isNan a) s).2).2
    ((hs.of_orderly (orderly_mk _)).of_orderly (orderly_mk _)) ha hb
  rw [buildUnordered, run_bind, run_bind, run_bind, fst_mk, fst_mk, safe_build, h.safe,
    safe_checks ha hb, and_comm, Ast.parts, forall_mem_pair, h.alive_isNan, h.alive_isNan]
  rfl

end Checks

/-! ## One call -/

/-- The expressions that are passed to the builder. -/
def BuilderCall.operands : BuilderCall → List Ast
  | integer .. | integer128 .. | float .. | getInputByte _ | nullPointer | true | false
  | bool _ => []
  | neg e | fpAbs e | not e | sext e _ | zext e _ | trunc e _ | intToFloat e _ _ | floatToFloat e _
  | floatToSignedInteger e _ | floatToUnsignedInteger e _ | boolToBits e _ | extractHelper e _ _ =>
    [e]
  | bitsToFloat e _ | floatToBits e => e.toList
  | binary _ a b | fpAdd a b | fpSub a b | fpMul a b | fpDiv a b | fpRem a b | notEqual a b
  | boolAnd a b | boolOr a b | floatOrderedNotEqual a b | floatOrdered a b | floatUnordered a b
  | floatUnorderedGreaterThan a b | floatUnorderedGreaterEqual a b | floatUnorderedLessThan a b
  | floatUnorderedLessEqual a b | floatUnorderedEqual a b | floatUnorderedNotEqual a b
  | concatHelper a b => [a, b]

/-- The terms `is_nan` that a builder makes on the way occur in terms that have references, or,
where only one call comes between, in its result. -/
def BuilderCall.Sheltered (s : Runtime) : BuilderCall → Prop
  | floatOrdered a b | floatUnordered a b => a = b ∨ s.Kept (isNan a)
  | floatUnorderedGreaterThan a b | floatUnorderedGreaterEqual a b | floatUnorderedLessThan a b
  | floatUnorderedLessEqual a b | floatUnorderedEqual a b | floatUnorderedNotEqual a b =>
    s.Kept (isNan a) ∧ s.Kept (isNan b)
  | _ => True

section Call

variable (fpaValue : Bool → BitVec 64 → BitVec 64) {s : Runtime}

private theorem refs_gRoundingMode_pos (hs : s.Covered) : 0 < refs s.calls gRoundingMode :=
  hs.refs_pos (Nat.add_pos_left (Nat.add_pos_right _ (by decide)) _)

theorem safe_symBuildInteger (hs : s.Covered) (value : BitVec 64) (bits : UInt8) :
    (symBuildInteger value bits s).2.Safe ↔ s.Safe :=
  safe_buildWithSort hs rfl (List.forall_mem_singleton.mpr (.inl rfl))

theorem refs_symBuildInteger_pos (hs : s.Covered) (value : BitVec 64) (bits : UInt8) :
    0 < refs (symBuildInteger value bits s).2.calls (symBuildInteger value bits s).1 := by
  exact (hs.of_orderly (orderly_symBuildInteger value bits)).refs_pos (retains_buildWithSort _ _ s)

private theorem safe_symBuildInteger128 (hs : s.Covered) (high low : BitVec 64) :
    (symBuildInteger128 high low s).2.Safe ↔ s.Safe := by
  have hhigh := hs.of_orderly (orderly_symBuildInteger high 64)
  rw [symBuildInteger128, run_bind, run_bind, safe_build_of_counted, safe_symBuildInteger hhigh,
    safe_symBuildInteger hs]
  refine forall_mem_pair.mpr ⟨?_, refs_symBuildInteger_pos hhigh low 64⟩
  exact (refs_symBuildInteger_pos hs high 64).trans_le
    ((orderly_symBuildInteger low 64).refs_le _ _)

private theorem safe_symBuildBoolToBits (hs : s.Covered) {expr : Ast} (h : 0 < refs s.calls expr)
    (bits : UInt8) : (symBuildBoolToBits expr bits s).2.Safe ↔ s.Safe := by
  have hone := hs.of_orderly (orderly_symBuildInteger 1 bits)
  have hzero := orderly_symBuildInteger 0 bits
  rw [symBuildBoolToBits, run_bind, run_bind, safe_build_of_counted, safe_symBuildInteger hone,
    safe_symBuildInteger hs]
  refine List.forall_mem_cons.mpr ⟨?_, forall_mem_pair.mpr ⟨?_, ?_⟩⟩
  · exact (h.trans_le ((orderly_symBuildInteger 1 bits).refs_le s expr)).trans_le
      (hzero.refs_le _ expr)
  · exact (refs_symBuildInteger_pos hs 1 bits).trans_le (hzero.refs_le _ _)
  · exact refs_symBuildInteger_pos hone 0 bits

theorem BuilderCall.safe_run (hs : s.Covered) (call : BuilderCall)
    (h : ∀ t ∈ call.operands, 0 < refs s.calls t) :
    (call.run fpaValue s).2.Safe ↔ s.Safe ∧ call.Sheltered s := by
  have hround := refs_gRoundingMode_pos hs
  have hchecked : ∀ {m : RuntimeM Ast} {p : Prop}, ((m s).2.Safe ↔ s.Safe ∧ p) →
      (((some <$> m) s).2.Safe ↔ s.Safe ∧ p) := id
  have hplain : ∀ {m : RuntimeM Ast}, ((m s).2.Safe ↔ s.Safe) →
      (((some <$> m) s).2.Safe ↔ s.Safe ∧ True) := fun h ↦ h.trans (and_iff_left trivial).symm
  cases call with
  | nullPointer | true | false | bool => exact hplain Iff.rfl
  | getInputByte offset => exact (safe_symGetInputByte hs offset).trans (and_iff_left trivial).symm
  | neg | binary | fpRem | fpAbs | not | boolAnd | boolOr | sext | zext | trunc | concatHelper
  | extractHelper => exact hplain (safe_build_of_counted h)
  | fpAdd | fpSub | fpMul | fpDiv =>
    exact hplain (safe_build_of_counted (List.forall_mem_cons.mpr ⟨hround, h⟩))
  | integer | float =>
    exact hplain (safe_buildWithSort hs rfl (List.forall_mem_singleton.mpr (.inl rfl)))
  | intToFloat | floatToFloat =>
    exact hplain (safe_buildWithSort hs rfl (List.forall_mem_cons.mpr ⟨.inr hround,
      List.forall_mem_cons.mpr ⟨.inr (h _ List.mem_cons_self),
        List.forall_mem_singleton.mpr (.inl rfl)⟩⟩))
  | integer128 high low => exact hplain (safe_symBuildInteger128 hs high low)
  | boolToBits expr bits => exact hplain (safe_symBuildBoolToBits hs (h _ List.mem_cons_self) bits)
  | notEqual a b =>
    refine hplain (safe_build.trans (and_iff_right ?_ |>.trans (safe_mk.trans (and_iff_right ?_))))
    · exact List.forall_mem_singleton.mpr alive_mk_self
    · exact fun p hp ↦ .counted (h p hp)
  | floatToSignedInteger | floatToUnsignedInteger =>
    refine hplain (safe_build.trans (and_iff_right ?_ |>.trans (safe_mk.trans (and_iff_right ?_))))
    · exact List.forall_mem_cons.mpr ⟨alive_mk_self, fun p hp ↦ .counted (h p hp)⟩
    · exact fun p hp ↦ absurd hp List.not_mem_nil
  | floatOrderedNotEqual a b =>
    obtain ⟨ha, hb⟩ := forall_mem_pair.mp h
    exact hplain (orderedSpec_symBuildFloatOrderedNotEqual s hs ha hb).safe
  | floatUnordered a b =>
    obtain ⟨ha, hb⟩ := forall_mem_pair.mp h
    exact hchecked (safe_symBuildFloatUnordered ha hb)
  | floatOrdered a b =>
    obtain ⟨ha, hb⟩ := forall_mem_pair.mp h
    exact hchecked (safe_symBuildFloatOrdered hs ha hb)
  | floatUnorderedNotEqual a b =>
    obtain ⟨ha, hb⟩ := forall_mem_pair.mp h
    exact hchecked (safe_buildUnordered orderedSpec_symBuildFloatOrderedNotEqual hs ha hb)
  | floatUnorderedGreaterThan a b | floatUnorderedGreaterEqual a b | floatUnorderedLessThan a b
  | floatUnorderedLessEqual a b | floatUnorderedEqual a b =>
    obtain ⟨ha, hb⟩ := forall_mem_pair.mp h
    exact hchecked (safe_buildUnordered (orderedSpec_symBuildBinary _) hs ha hb)
  | bitsToFloat expr toDouble =>
    cases expr with
    | none => exact (and_iff_left trivial).symm
    | some expr =>
      exact (safe_buildWithSort hs rfl (List.forall_mem_cons.mpr ⟨.inr (h _ List.mem_cons_self),
        List.forall_mem_singleton.mpr (.inl rfl)⟩)).trans (and_iff_left trivial).symm
  | floatToBits expr =>
    cases expr with
    | none => exact (and_iff_left trivial).symm
    | some expr =>
      exact (safe_build_of_counted (t := .unary .fpaToIeeeBv expr) h).trans
        (and_iff_left trivial).symm

end Call

/-! ## Runs -/

/-- A client of the runtime, with the expressions that have been returned to it. -/
structure Client where
  runtime : Runtime
  returned : List Ast

namespace Client

variable (fpaValue : Bool → BitVec 64 → BitVec 64)

/-- At the beginning. -/
def init : Client := ⟨.init, []⟩

/-- The client calls a builder. -/
def step (s : Client) (call : BuilderCall) : Client × Option Ast :=
  let (result, runtime) := call.run fpaValue s.runtime
  (⟨runtime, result.toList ++ s.returned⟩, result)

/-- The operands have been returned earlier. -/
def OnReturned (s : Client) (call : BuilderCall) : Prop := ∀ t ∈ call.operands, t ∈ s.returned

instance (s : Client) (call : BuilderCall) : Decidable (s.OnReturned call) :=
  inferInstanceAs (Decidable (∀ t ∈ call.operands, t ∈ s.returned))

/-- What has been returned is held. -/
structure Holding (s : Client) : Prop where
  covered : s.runtime.Covered
  returned : ∀ t ∈ s.returned, 0 < s.runtime.holders t

private theorem holding_init : Holding init where
  covered e := ((balanced_iff_excess _).mp balanced_init e).ge
  returned _ ht := absurd ht List.not_mem_nil

theorem Holding.step {s : Client} (hs : s.Holding) (call : BuilderCall) :
    (step fpaValue s call).1.Holding where
  covered := hs.covered.of_orderly (call.orderly fpaValue)
  returned t ht := by
    rcases List.mem_append.mp ht with ht | ht
    · exact call.retains fpaValue s.runtime (Option.mem_toList.mp ht)
    · exact (hs.returned t ht).trans_le ((call.orderly fpaValue).holders_le s.runtime t)

private theorem safe_init : init.runtime.Safe := by
  decide

/-- In a run of calls on expressions that have been returned, every term passed to Z3 is alive,
exactly if the checks of every call are sheltered. -/
theorem safe_iff (calls : List BuilderCall)
    (h : Machine.Along (step fpaValue) OnReturned init calls) :
    (Machine.run (step fpaValue) init calls).1.runtime.Safe ↔
      Machine.Along (step fpaValue) (fun s call ↦ call.Sheltered s.runtime) init calls := by
  refine (Machine.run_iff (I := Holding) (Q := fun s ↦ s.runtime.Safe) ?_ ?_ holding_init h).trans
    (and_iff_right safe_init)
  · intro s call hs _
    exact hs.step fpaValue call
  · intro s call hs hcall
    exact call.safe_run fpaValue hs.covered fun t ht ↦
      hs.covered.refs_pos (hs.returned t (hcall t ht))

/-- The number 1. -/
def one : Ast := .unary (.fpaNumeral 0x3FF0000000000000) (fSort true)

/-- The number 2. -/
def two : Ast := .unary (.fpaNumeral 0x4000000000000000) (fSort true)

/-- A client that makes both numbers. -/
def makeNumbers : List BuilderCall :=
  [.float 0x3FF0000000000000 true, .float 0x4000000000000000 true]

/-- The check of the first number is freed when the second one is checked. -/
theorem not_safe :
    Machine.Along (step fun _ value ↦ value) OnReturned init
        (makeNumbers ++ [.floatOrdered one two]) ∧
      ¬(Machine.run (step fun _ value ↦ value) init
        (makeNumbers ++ [.floatOrdered one two])).1.runtime.Safe := by
  decide

/-- An expression that has its check in it shelters later checks of the same number. -/
theorem safe_iff_shared :
    (Machine.run (step fun _ value ↦ value) init
      (makeNumbers ++ [.floatUnordered one one, .floatOrdered one two])).1.runtime.Safe :=
  (safe_iff (fun _ value ↦ value) _ (by decide)).mpr
    ⟨trivial, trivial, Or.inl rfl, Or.inr (by decide), trivial⟩

end Client

end Adacc.SimpleBackend
