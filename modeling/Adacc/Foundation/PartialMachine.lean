import Mathlib.Data.List.Basic

/-!
# Runs of a partial machine

A partial machine takes steps by itself, may be stuck, and every step has outputs. `steps` takes
a given number of steps. Two principles lift facts about one step to runs of any length.

* `steps_simulate`: if related states stay related and the second machine can follow every
  admissible step of the first, then it can follow every run of admissible steps.
* `steps_lockstep`: if related states stay related whenever both machines take a step and the
  outputs of the first are good, then they stay related along two runs of one length.

A step may be inadmissible because of the state of one machine in which it is taken: `StepsAlong`
says that a property holds of every state in which the machine takes one of its next steps.
-/

namespace Machine

variable {σ τ ω ω' : Type*}

/-- The state after `n` steps and the outputs in order, if none of the steps is stuck. -/
def steps (step : σ → Option (σ × List ω)) : ℕ → σ → Option (σ × List ω)
  | 0, s => some (s, [])
  | n + 1, s =>
    (step s).bind fun first ↦ (steps step n first.1).map fun rest ↦ (rest.1, first.2 ++ rest.2)

theorem steps_succ_eq_some {step : σ → Option (σ × List ω)} {n : ℕ} {s s'' : σ} {os : List ω} :
    steps step (n + 1) s = some (s'', os) ↔
      ∃ s' o o', step s = some (s', o) ∧ steps step n s' = some (s'', o') ∧ os = o ++ o' := by
  rw [steps, Option.bind_eq_some_iff]
  constructor
  · rintro ⟨⟨s', o⟩, hfirst, hrest⟩
    obtain ⟨⟨t, o'⟩, hrest, heq⟩ := Option.map_eq_some_iff.mp hrest
    rw [Prod.mk.injEq] at heq
    exact ⟨s', o, o', hfirst, heq.1 ▸ hrest, heq.2.symm⟩
  · rintro ⟨s', o, o', hfirst, hrest, rfl⟩
    exact ⟨(s', o), hfirst, Option.map_eq_some_iff.mpr ⟨(s'', o'), hrest, rfl⟩⟩

theorem steps_add {step : σ → Option (σ × List ω)} {m n : ℕ} {s s' s'' : σ} {o o' : List ω}
    (h : steps step m s = some (s', o)) (h' : steps step n s' = some (s'', o')) :
    steps step (m + n) s = some (s'', o ++ o') := by
  induction m generalizing s o with
  | zero =>
    cases h
    rw [Nat.zero_add, List.nil_append, h']
  | succ m ih =>
    obtain ⟨s₁, o₁, o₂, hfirst, hrest, rfl⟩ := steps_succ_eq_some.mp h
    rw [Nat.add_right_comm]
    exact steps_succ_eq_some.mpr ⟨s₁, o₁, o₂ ++ o', hfirst, ih hrest, List.append_assoc _ _ _⟩

/-- Every state in which one of the next `n` steps is taken satisfies `P`. -/
def StepsAlong (step : σ → Option (σ × List ω)) (P : σ → Prop) : ℕ → σ → Prop
  | 0, _ => True
  | n + 1, s => P s ∧ ∀ s' o, step s = some (s', o) → StepsAlong step P n s'

theorem StepsAlong.of_forall {step : σ → Option (σ × List ω)} {P : σ → Prop} (h : ∀ s, P s)
    (n : ℕ) (s : σ) : StepsAlong step P n s := by
  induction n generalizing s with
  | zero => trivial
  | succ n ih => exact ⟨h s, fun s' _ _ ↦ ih s'⟩

/-- A machine that follows every admissible step follows every run of admissible steps. Outputs are
compared by a relation that is compatible with putting them one after the other. -/
theorem steps_simulate {step : σ → Option (σ × List ω)} {step' : τ → Option (τ × List ω')}
    {R : σ → τ → Prop} {P : τ → Prop} {Q : List ω → List ω' → Prop} (hnil : Q [] [])
    (happend : ∀ {o₁ o₂ o₁' o₂'}, Q o₁ o₁' → Q o₂ o₂' → Q (o₁ ++ o₂) (o₁' ++ o₂'))
    (hstep : ∀ {s t s' o}, R s t → P t → step s = some (s', o) →
      ∃ t' o', step' t = some (t', o') ∧ R s' t' ∧ Q o o')
    {n : ℕ} {s s' : σ} {t : τ} {o : List ω} (h : R s t) (halong : StepsAlong step' P n t)
    (hrun : steps step n s = some (s', o)) :
    ∃ t' o', steps step' n t = some (t', o') ∧ R s' t' ∧ Q o o' := by
  induction n generalizing s t o with
  | zero =>
    rw [steps, Option.some.injEq, Prod.mk.injEq] at hrun
    exact ⟨t, [], rfl, hrun.1 ▸ h, hrun.2 ▸ hnil⟩
  | succ n ih =>
    obtain ⟨s₁, o₁, o₂, hfirst, hrest, rfl⟩ := steps_succ_eq_some.mp hrun
    obtain ⟨t₁, o₁', hfirst', h₁, hQ₁⟩ := hstep h halong.1 hfirst
    obtain ⟨t', o₂', hrest', h', hQ₂⟩ := ih h₁ (halong.2 t₁ o₁' hfirst') hrest
    exact ⟨t', o₁' ++ o₂', steps_succ_eq_some.mpr ⟨t₁, o₁', o₂', hfirst', hrest', rfl⟩, h',
      happend hQ₁ hQ₂⟩

/-- Two machines that both take a step, the first with good outputs, stay related along two runs of
one length, the first with good outputs. -/
theorem steps_lockstep {step : σ → Option (σ × List ω)} {step' : τ → Option (τ × List ω')}
    {R : σ → τ → Prop} {P : σ → Prop} {G : ω → Prop} {Q : List ω → List ω' → Prop} (hnil : Q [] [])
    (happend : ∀ {o₁ o₂ o₁' o₂'}, Q o₁ o₁' → Q o₂ o₂' → Q (o₁ ++ o₂) (o₁' ++ o₂'))
    (hstep : ∀ {s t s' t' o o'}, R s t → P s → step s = some (s', o) → step' t = some (t', o') →
      (∀ x ∈ o, G x) → R s' t' ∧ Q o o')
    {n : ℕ} {s s' : σ} {t t' : τ} {o : List ω} {o' : List ω'} (h : R s t)
    (halong : StepsAlong step P n s) (hrun : steps step n s = some (s', o))
    (hrun' : steps step' n t = some (t', o')) (hgood : ∀ x ∈ o, G x) : R s' t' ∧ Q o o' := by
  induction n generalizing s t o o' with
  | zero =>
    rw [steps, Option.some.injEq, Prod.mk.injEq] at hrun hrun'
    exact ⟨hrun.1 ▸ hrun'.1 ▸ h, hrun.2 ▸ hrun'.2 ▸ hnil⟩
  | succ n ih =>
    obtain ⟨s₁, o₁, o₂, hfirst, hrest, rfl⟩ := steps_succ_eq_some.mp hrun
    obtain ⟨t₁, o₁', o₂', hfirst', hrest', rfl⟩ := steps_succ_eq_some.mp hrun'
    rw [List.forall_mem_append] at hgood
    obtain ⟨h₁, hQ₁⟩ := hstep h halong.1 hfirst hfirst' hgood.1
    obtain ⟨h', hQ₂⟩ := ih h₁ (halong.2 s₁ o₁ hfirst) hrest hrest' hgood.2
    exact ⟨h', happend hQ₁ hQ₂⟩

end Machine
