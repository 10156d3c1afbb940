import Adacc.Foundation.PartialMachine
import Mathlib.Data.Set.Basic
import Mathlib.Data.List.Infix

/-!
# Traces that fork

Two runs of a deterministic machine on different data agree until the data make a difference. Their
traces then *fork*: they are the same up to two events that turn away from each other, and nothing
is said about what comes later. The events before are good, and the first trace's event at the fork
is not, so the position of the fork is determined by the first trace alone (`Forks.of_split`).

Three uses are made of this.

* `steps_forks`: if one step of two machines in related states forks, and leads to related states
  when its events are good, then so do two runs of one length.
* `completes_forks`: the same for two runs that have come to their ends, whatever their lengths.
* `exists_mem_generation`: if at every fork between the trace of an input and a goal some input is
  suggested whose trace takes the goal's turn, then after as many rounds as the goal has turns, some
  suggested input has the goal as its trace.
-/

namespace Trace

variable {δ : Type*} {good : δ → Prop} {turns : δ → δ → Prop}

/-- The traces are the same and good, or they agree on good events up to two that turn away from
each other. -/
def Forks (good : δ → Prop) (turns : δ → δ → Prop) (ds ds' : List δ) : Prop :=
  (ds' = ds ∧ ∀ d ∈ ds, good d) ∨
    ∃ before d d' after after', ds = before ++ d :: after ∧ ds' = before ++ d' :: after' ∧
      (∀ b ∈ before, good b) ∧ turns d d'

theorem Forks.same {ds : List δ} (h : ∀ d ∈ ds, good d) : Forks good turns ds ds :=
  .inl ⟨rfl, h⟩

theorem Forks.nil : Forks good turns [] [] := .same fun _ hd ↦ absurd hd List.not_mem_nil

theorem Forks.turn {d d' : δ} (h : turns d d') (ds ds' : List δ) :
    Forks good turns (d :: ds) (d' :: ds') :=
  .inr ⟨[], d, d', ds, ds', rfl, rfl, fun _ hb ↦ absurd hb List.not_mem_nil, h⟩

/-- What comes after a trace matters only if there was no fork yet. -/
theorem Forks.append {ds ds' es es' : List δ} (h : Forks good turns ds ds')
    (h' : ds' = ds → (∀ d ∈ ds, good d) → Forks good turns es es') :
    Forks good turns (ds ++ es) (ds' ++ es') := by
  rcases h with ⟨rfl, hgood⟩ | ⟨before, d, d', after, after', rfl, rfl, hgood, hturn⟩
  · rcases h' rfl hgood with ⟨rfl, hgood'⟩ |
      ⟨before, d, d', after, after', rfl, rfl, hgood', hturn⟩
    · exact .same (List.forall_mem_append.mpr ⟨hgood, hgood'⟩)
    · exact .inr ⟨ds' ++ before, d, d', after, after', (List.append_assoc _ _ _).symm,
        (List.append_assoc _ _ _).symm, List.forall_mem_append.mpr ⟨hgood, hgood'⟩, hturn⟩
  · exact .inr ⟨before, d, d', after ++ es, after' ++ es', List.append_assoc _ _ _,
      List.append_assoc _ _ _, hgood, hturn⟩

theorem Forks.mono {turns' : δ → δ → Prop} {ds ds' : List δ} (h : Forks good turns ds ds')
    (hle : ∀ {d d'}, turns d d' → turns' d d') : Forks good turns' ds ds' := by
  rcases h with hsame | ⟨before, d, d', after, after', hds, hds', hgood, hturn⟩
  · exact .inl hsame
  · exact .inr ⟨before, d, d', after, after', hds, hds', hgood, hle hturn⟩

/-- One event for each element of a list. -/
theorem Forks.map {ι : Type*} {f g : ι → δ} {l : List ι}
    (h : ∀ x ∈ l, g x = f x ∧ good (f x) ∨ turns (f x) (g x)) :
    Forks good turns (l.map f) (l.map g) := by
  induction l with
  | nil => exact .nil
  | cons x l ih =>
    rw [List.forall_mem_cons] at h
    rcases h.1 with ⟨heq, hgood⟩ | hturn
    · rw [List.map_cons, List.map_cons, heq]
      exact Forks.append (.same (List.forall_mem_singleton.mpr hgood)) fun _ _ ↦ ih h.2
    · exact .turn hturn _ _

/-- A trace does not turn away from itself. -/
theorem Forks.good_of_self (hirrefl : ∀ {d}, ¬turns d d) {ds : List δ}
    (h : Forks good turns ds ds) : ∀ d ∈ ds, good d := by
  rcases h with ⟨-, hgood⟩ | ⟨before, d, d', after, after', heq, heq', -, hturn⟩
  · exact hgood
  · have h := List.append_cancel_left (heq.symm.trans heq')
    rw [List.cons.injEq] at h
    exact absurd (h.1 ▸ hturn) hirrefl

/-- No fork where no event of the first trace turns away from another one. -/
theorem Forks.eq_of_forall {ds ds' : List δ} (h : Forks good turns ds ds')
    (hds : ∀ d ∈ ds, ∀ d', ¬turns d d') : ds' = ds ∧ ∀ d ∈ ds, good d := by
  rcases h with hsame | ⟨before, d, d', after, after', rfl, -, -, hturn⟩
  · exact hsame
  · exact absurd hturn (hds d (by simp) d')

/-- The fork is at the first event that is not good. -/
theorem Forks.of_split {before after ds' : List δ} {d : δ}
    (h : Forks good turns (before ++ d :: after) ds') (hbad : ∀ {d d'}, turns d d' → ¬good d)
    (hbefore : ∀ b ∈ before, good b) (hd : ¬good d) :
    ∃ d' after', ds' = before ++ d' :: after' ∧ turns d d' := by
  rcases h with ⟨-, hgood⟩ | ⟨before', d₁, d', after₁, after', heq, rfl, hbefore', hturn⟩
  · exact absurd (hgood d (by simp)) hd
  -- two splits of one list, each at its first event that is not good
  · rcases List.append_eq_append_iff.mp heq with ⟨cs, rfl, hcs⟩ | ⟨cs, rfl, hcs⟩
    · rcases cs with - | ⟨c, cs⟩
      · rw [List.nil_append, List.cons.injEq] at hcs
        exact ⟨d', after', by rw [List.append_nil], hcs.1 ▸ hturn⟩
      · rw [List.cons_append, List.cons.injEq] at hcs
        exact absurd (hbefore' d (by simp [hcs.1])) hd
    · rcases cs with - | ⟨c, cs⟩
      · rw [List.nil_append, List.cons.injEq] at hcs
        exact ⟨d', after', by rw [List.append_nil], hcs.1 ▸ hturn⟩
      · rw [List.cons_append, List.cons.injEq] at hcs
        exact absurd (hbefore d₁ (by simp [hcs.1])) (hbad hturn)

/-! ## Runs -/

section Runs

open Machine

variable {σ τ : Type*} {step : σ → Option (σ × List δ)} {step' : τ → Option (τ × List δ)}
  {R : σ → τ → Prop} {P : σ → Prop}

/-- Two runs of one length fork if their steps do. -/
theorem steps_forks
    (hstep : ∀ {s t s' t' o o'}, R s t → P s → step s = some (s', o) → step' t = some (t', o') →
      Forks good turns o o' ∧ ((∀ d ∈ o, good d) → R s' t'))
    {n : ℕ} {s s' : σ} {t t' : τ} {o o' : List δ} (h : R s t) (halong : StepsAlong step P n s)
    (hrun : steps step n s = some (s', o)) (hrun' : steps step' n t = some (t', o')) :
    Forks good turns o o' ∧ ((∀ d ∈ o, good d) → R s' t') := by
  induction n generalizing s t o o' with
  | zero =>
    rw [steps, Option.some.injEq, Prod.mk.injEq] at hrun hrun'
    rw [← hrun.1, ← hrun.2, ← hrun'.1, ← hrun'.2]
    exact ⟨.nil, fun _ ↦ h⟩
  | succ n ih =>
    obtain ⟨s₁, o₁, o₂, hfirst, hrest, rfl⟩ := steps_succ_eq_some.mp hrun
    obtain ⟨t₁, o₁', o₂', hfirst', hrest', rfl⟩ := steps_succ_eq_some.mp hrun'
    obtain ⟨hforks, hnext⟩ := hstep h halong.1 hfirst hfirst'
    have hih := fun hgood ↦ ih (hnext hgood) (halong.2 s₁ o₁ hfirst) hrest hrest'
    refine ⟨hforks.append fun _ hgood ↦ (hih hgood).1, fun hgood ↦ ?_⟩
    rw [List.forall_mem_append] at hgood
    exact (hih hgood.1).2 hgood.2

/-- The run from `s` comes to its end in `s'`, with the outputs `o`. -/
def Completes (step : σ → Option (σ × List δ)) (final : σ → Prop) (s s' : σ) (o : List δ) : Prop :=
  final s' ∧ ∃ n, steps step n s = some (s', o)

/-- Two runs to the end fork if their steps do and related states are final together. -/
theorem completes_forks {final : σ → Prop} {final' : τ → Prop}
    (hstep : ∀ {s t s' t' o o'}, R s t → P s → step s = some (s', o) → step' t = some (t', o') →
      Forks good turns o o' ∧ ((∀ d ∈ o, good d) → R s' t'))
    (hfinal : ∀ {s t}, R s t → (final s ↔ final' t)) (hstuck : ∀ {s}, final s → step s = none)
    (hstuck' : ∀ {t}, final' t → step' t = none) {s s' : σ} {t t' : τ} {o o' : List δ} (h : R s t)
    (halong : ∀ n, StepsAlong step P n s) (hrun : Completes step final s s' o)
    (hrun' : Completes step' final' t t' o') : Forks good turns o o' := by
  obtain ⟨hs', n, hrun⟩ := hrun
  obtain ⟨ht', n', hrun'⟩ := hrun'
  induction n generalizing s t o o' n' with
  | zero =>
    rw [steps, Option.some.injEq, Prod.mk.injEq] at hrun
    obtain ⟨rfl, rfl⟩ := hrun
    have ht := hstuck' ((hfinal h).mp hs')
    cases n' with
    | zero =>
      rw [steps, Option.some.injEq, Prod.mk.injEq] at hrun'
      rw [← hrun'.2]
      exact .nil
    | succ n' =>
      obtain ⟨t₁, o₁', o₂', hfirst', -⟩ := steps_succ_eq_some.mp hrun'
      rw [ht] at hfirst'
      cases hfirst'
  | succ n ih =>
    obtain ⟨s₁, o₁, o₂, hfirst, hrest, rfl⟩ := steps_succ_eq_some.mp hrun
    cases n' with
    | zero =>
      rw [steps, Option.some.injEq, Prod.mk.injEq] at hrun'
      rw [← hrun'.1] at ht'
      rw [hstuck ((hfinal h).mpr ht')] at hfirst
      cases hfirst
    | succ n' =>
      obtain ⟨t₁, o₁', o₂', hfirst', hrest', rfl⟩ := steps_succ_eq_some.mp hrun'
      obtain ⟨hforks, hnext⟩ := hstep h (halong 1).1 hfirst hfirst'
      exact hforks.append fun _ hgood ↦ ih (hnext hgood)
        (fun m ↦ (halong (m + 1)).2 s₁ o₁ hfirst) hrest n' hrest'

end Runs

/-! ## Searching for a trace -/

section Search

variable {ι : Type*} {suggests : ι → ι → Prop}

/-- What is suggested in the `n`th round, when the seeds are tried in the first one. -/
def generation (suggests : ι → ι → Prop) : ℕ → Set ι → Set ι
  | 0, seeds => seeds
  | n + 1, seeds => generation suggests n {j | ∃ i ∈ seeds, suggests i j}

/-- A common prefix of two traces ends before their fork. -/
theorem prefix_of_fork {ds before after after' : List δ} {d d' : δ} (hne : d' ≠ d)
    (h : ds <+: before ++ d :: after) (h' : ds <+: before ++ d' :: after') : ds <+: before := by
  rcases List.prefix_or_prefix_of_prefix h (List.prefix_append before (d :: after)) with
    hle | ⟨es, rfl⟩
  · exact hle
  rw [List.prefix_append_right_inj] at h h'
  rcases es with - | ⟨e, es⟩
  · rw [List.append_nil]
  · exact absurd ((List.cons_prefix_cons.mp h').1.symm.trans (List.cons_prefix_cons.mp h).1) hne

/-- A tester whose suggestions take the goal's turn at every fork reaches the goal in as many rounds
as it has turns. -/
theorem exists_mem_generation {trace : ι → List δ} {isTurn : δ → Bool} {goal : List δ}
    (hfork : ∀ i, trace i = goal ∨ ∃ before d d' after after' j, trace i = before ++ d :: after ∧
      goal = before ++ d' :: after' ∧ d' ≠ d ∧ isTurn d' = true ∧ suggests i j ∧
        before ++ [d'] <+: trace j) {seeds : Set ι} {i : ι} (hi : i ∈ seeds) :
    ∃ n ≤ goal.countP isTurn, ∃ j ∈ generation suggests n seeds, trace j = goal := by
  -- by induction on the part of the goal that is not known to be agreed on
  suffices h : ∀ (k : ℕ) (rest before : List δ), rest.length = k → goal = before ++ rest →
      ∀ (seeds : Set ι), (∃ i ∈ seeds, before <+: trace i) →
        ∃ n ≤ rest.countP isTurn, ∃ j ∈ generation suggests n seeds, trace j = goal from
    h goal.length goal [] rfl rfl seeds ⟨i, hi, List.nil_prefix⟩
  intro k
  induction k using Nat.strong_induction_on with
  | _ k ih =>
    rintro rest agreed rfl hgoal seeds ⟨i, hi, hprefix⟩
    rcases hfork i with heq | ⟨before, d, d', after, after', j, htrace, hgoal', hne, hturn,
      hsuggests, hj⟩
    · exact ⟨0, Nat.zero_le _, i, hi, heq⟩
    -- the fork is in the rest, and the suggested input agrees beyond it
    have hagreed : agreed <+: before :=
      prefix_of_fork hne (htrace ▸ hprefix) (hgoal' ▸ hgoal ▸ List.prefix_append agreed rest)
    obtain ⟨more, rfl⟩ := hagreed
    have hrest : rest = more ++ d' :: after' := by
      rw [hgoal, List.append_assoc] at hgoal'
      exact List.append_cancel_left hgoal'
    obtain ⟨n, hn, j', hj', htrace'⟩ := ih after'.length
      (by rw [hrest, List.length_append, List.length_cons]; omega) after' (agreed ++ more ++ [d'])
      rfl (by rw [hgoal', List.append_assoc _ [d'], List.singleton_append])
      {j | ∃ i ∈ seeds, suggests i j} ⟨j, ⟨i, hi, hsuggests⟩, hj⟩
    refine ⟨n + 1, ?_, j', hj', htrace'⟩
    rw [hrest, List.countP_append, List.countP_cons_of_pos hturn]
    omega

end Search

end Trace
