import Mathlib.Algebra.Order.Group.Unbundled.Int
import Mathlib.Logic.Relation

/-!
# Terms with reference counters

A library makes terms from other terms, their parts, and its client counts the references to them.
What the client does is the list of its calls, the latest first. A term whose counter is zero is
freed, unless it is the result of the latest call or a part of a term that is not freed (`Alive`).

* `Safe`: every term passed to the library was alive at that moment.
* `alive_iff_kept`: a term is alive exactly when it occurs in a term that is counted (`Kept`) or in
  the result of the latest call. So if occurrence is decidable, then being alive is, and so is
  `Safe`.
-/

namespace ReferenceCounting

variable {α : Type*}

/-- A call of the library. Only `incRef` and `decRef` change a counter. -/
inductive Call (α : Type*)
  | apply (args : List α) (result : Option α)
  | incRef (t : α)
  | decRef (t : α)

/-- The terms passed to the library. -/
def Call.args : Call α → List α
  | .apply args _ => args
  | .incRef t | .decRef t => [t]

/-- The term that the library returns. -/
def Call.result : Call α → Option α
  | .apply _ result => result
  | .incRef _ | .decRef _ => none

/-- The calls of `incRef` on a term minus those of `decRef`. -/
def refs [DecidableEq α] : List (Call α) → α → ℤ
  | [], _ => 0
  | .apply _ _ :: calls, t => refs calls t
  | .incRef u :: calls, t => refs calls t + if t = u then 1 else 0
  | .decRef u :: calls, t => refs calls t - if t = u then 1 else 0

/-- The result of the latest call. -/
def latest (calls : List (Call α)) : Option α := calls.head?.bind Call.result

section Alive

variable (parts : α → List α)

/-- `t` is `u` or occurs in it. -/
def Inside (t u : α) : Prop := Relation.ReflTransGen (fun a b ↦ a ∈ parts b) t u

variable {parts} in
theorem Inside.refl (t : α) : Inside parts t t := Relation.ReflTransGen.refl

variable {parts} in
theorem inside_iff {t u : α} :
    Inside parts t u ↔ t = u ∨ ∃ part ∈ parts u, Inside parts t part := by
  rw [Inside, Relation.ReflTransGen.cases_tail_iff, eq_comm]
  constructor
  · rintro (rfl | ⟨part, h, hpart⟩)
    · exact .inl rfl
    · exact .inr ⟨part, hpart, h⟩
  · rintro (rfl | ⟨part, hpart, h⟩)
    · exact .inl rfl
    · exact .inr ⟨part, h, hpart⟩

variable [DecidableEq α]

/-- The terms that are not freed. -/
inductive Alive (calls : List (Call α)) : α → Prop
  | counted {t : α} (h : 0 < refs calls t) : Alive calls t
  | latest {t : α} (h : latest calls = some t) : Alive calls t
  | inside {t u : α} (h : t ∈ parts u) (hu : Alive calls u) : Alive calls t

/-- The term occurs in one that is counted. -/
def Kept (calls : List (Call α)) (t : α) : Prop := ∃ u, 0 < refs calls u ∧ Inside parts t u

/-- Every term was alive when it was passed to the library. -/
def Safe : List (Call α) → Prop
  | [] => True
  | call :: calls => (∀ t ∈ call.args, Alive parts calls t) ∧ Safe calls

variable {parts} {calls : List (Call α)} {t u : α}

theorem Alive.of_inside (h : Inside parts t u) (hu : Alive parts calls u) :
    Alive parts calls t := by
  induction h using Relation.ReflTransGen.head_induction_on with
  | refl => exact hu
  | head hpart _ ih => exact .inside hpart ih

theorem alive_iff_kept :
    Alive parts calls t ↔ Kept parts calls t ∨ ∃ u ∈ latest calls, Inside parts t u := by
  constructor
  · intro h
    induction h with
    | counted h => exact .inl ⟨_, h, .refl _⟩
    | latest h => exact .inr ⟨_, h, .refl _⟩
    | inside hpart _ ih =>
      refine ih.imp ?_ ?_
      · rintro ⟨u, hu, h⟩
        exact ⟨u, hu, h.head hpart⟩
      · rintro ⟨u, hu, h⟩
        exact ⟨u, hu, h.head hpart⟩
  · rintro (⟨u, hu, h⟩ | ⟨u, hu, h⟩)
    · exact .of_inside h (.counted hu)
    · exact .of_inside h (.latest hu)

theorem alive_apply {args : List α} :
    Alive parts (.apply args (some u) :: calls) t ↔ Kept parts calls t ∨ Inside parts t u := by
  rw [alive_iff_kept]
  refine or_congr Iff.rfl ?_
  simp [latest, Call.result]

theorem alive_incRef :
    Alive parts (.incRef u :: calls) t ↔ Kept parts (.incRef u :: calls) t := by
  rw [alive_iff_kept]
  simp [latest, Call.result]

theorem kept_incRef (h : 0 ≤ refs calls u) :
    Kept parts (.incRef u :: calls) t ↔ Kept parts calls t ∨ Inside parts t u := by
  constructor
  · rintro ⟨v, hv, hinside⟩
    rw [refs] at hv
    split at hv
    · next heq => exact .inr (heq ▸ hinside)
    · exact .inl ⟨v, by omega, hinside⟩
  · rintro (⟨v, hv, hinside⟩ | hinside)
    · refine ⟨v, hv.trans_le ?_, hinside⟩
      rw [refs]
      split <;> omega
    · refine ⟨u, ?_, hinside⟩
      rw [refs, if_pos rfl]
      omega

/-- Only what `incRef` has been called on is counted. -/
theorem incRef_mem (h : 0 < refs calls t) : .incRef t ∈ calls := by
  induction calls with
  | nil => exact absurd h (lt_irrefl 0)
  | cons call calls ih =>
    cases call with
    | apply args result => exact List.mem_cons_of_mem _ (ih h)
    | incRef u =>
      rcases eq_or_ne t u with rfl | hne
      · exact List.mem_cons_self
      · rw [refs, if_neg hne, add_zero] at h
        exact List.mem_cons_of_mem _ (ih h)
    | decRef u =>
      refine List.mem_cons_of_mem _ (ih (h.trans_le ?_))
      rw [refs]
      split <;> omega

theorem kept_iff :
    Kept parts calls t ↔ ∃ call ∈ calls, ∃ u ∈ call.args, 0 < refs calls u ∧ Inside parts t u := by
  constructor
  · rintro ⟨u, hu, h⟩
    exact ⟨.incRef u, incRef_mem hu, u, List.mem_singleton_self u, hu, h⟩
  · rintro ⟨-, -, u, -, hu, h⟩
    exact ⟨u, hu, h⟩

section Decidable

variable [DecidableRel (Inside parts)]

instance (calls : List (Call α)) (t : α) : Decidable (Kept parts calls t) :=
  decidable_of_iff _ kept_iff.symm

instance (calls : List (Call α)) (t : α) : Decidable (Alive parts calls t) :=
  decidable_of_iff _ alive_iff_kept.symm

instance decidableSafe : (calls : List (Call α)) → Decidable (Safe parts calls)
  | [] => isTrue trivial
  | _ :: calls => @instDecidableAnd _ _ inferInstance (decidableSafe calls)

end Decidable

end Alive

end ReferenceCounting
