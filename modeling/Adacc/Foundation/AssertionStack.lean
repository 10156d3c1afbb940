import Mathlib.Data.List.Basic

/-!
# The assertion stack of an SMT solver

Assertions are added to the innermost open scope; closing a scope removes what was asserted since
it was opened. A solver is used safely when every excursion into a scope is undone, and
`pop_excursion` is that statement: opening a scope, asserting in it and closing it is no change.
-/

namespace SmtLib

/-- The assertions of a solver: those outside every scope, and the open scopes, innermost first. -/
structure AssertionStack (α : Type*) where
  base : List α
  scopes : List (List α)

namespace AssertionStack

variable {α : Type*}

def empty : AssertionStack α := ⟨[], []⟩

/-- The number of open scopes. -/
def depth (s : AssertionStack α) : ℕ := s.scopes.length

/-- All assertions in force. -/
def assertions (s : AssertionStack α) : List α := s.scopes.flatten ++ s.base

def push (s : AssertionStack α) : AssertionStack α := { s with scopes := [] :: s.scopes }

def pop (n : ℕ) (s : AssertionStack α) : AssertionStack α := { s with scopes := s.scopes.drop n }

def assert (a : α) (s : AssertionStack α) : AssertionStack α :=
  match s.scopes with
  | [] => { s with base := a :: s.base }
  | scope :: scopes => { s with scopes := (a :: scope) :: scopes }

@[simp] theorem assertions_push (s : AssertionStack α) : s.push.assertions = s.assertions := rfl

@[simp] theorem assertions_assert (a : α) (s : AssertionStack α) :
    (s.assert a).assertions = a :: s.assertions := by
  unfold assert assertions
  split
  · next h => rw [h]; rfl
  · next h => rw [h]; rfl

@[simp] theorem depth_assert (a : α) (s : AssertionStack α) : (s.assert a).depth = s.depth := by
  unfold assert depth
  split
  · next h => rw [h]
  · next h => rw [h]; rfl

/-- An excursion into a scope leaves no trace. -/
@[simp] theorem pop_excursion (a : α) (s : AssertionStack α) : ((s.push).assert a).pop 1 = s := rfl

end AssertionStack

end SmtLib
