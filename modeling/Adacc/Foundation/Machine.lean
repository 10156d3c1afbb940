import Mathlib.Data.List.Induction
import Mathlib.Data.List.Forall2

/-!
# Runs of a machine

A machine takes one input at a time, changes its state and answers. `run` feeds it a list of
inputs. Seven principles lift facts about one step to whole runs. `record` adds to a machine a
record of its past, for what depends on more than the state.

* `run_refines`: if every step commutes with a map of states and gives the same answer, then so
  does every run.
* `run_answers_iff`: if in states that satisfy an invariant a step answers well exactly when it is
  admissible, and then keeps the invariant, then a run answers well exactly when all its steps are
  admissible. `run_some_iff` is the same for machines that answer some inputs only.
* `along_iff`: if two properties of steps agree in states that satisfy an invariant, then all steps
  of a run have one exactly when they have the other.
* `run_iff`: if a step keeps a property of states exactly when it is admissible, and never brings it
  back, then the property holds after a run exactly when all its steps are admissible.
* `run_keeps`: an invariant that every admissible step keeps, answering well, holds after every run
  of admissible steps, and all its answers are good.
* `run_invariant`: a relation between the inputs so far and the state that every step keeps holds
  after every run. The relation may look at the whole history, and the step may assume any property
  of histories that passes to initial segments.
* `run_related`: if every step of two machines on one input keeps a relation between their states
  and relates their answers, then so do two runs on one list of inputs.
-/

namespace Machine

variable {σ τ ι ω : Type*}

/-- The last state and the answers, in order. -/
def run (step : σ → ι → σ × ω) : σ → List ι → σ × List ω
  | s, [] => (s, [])
  | s, i :: is =>
    let (s', o) := step s i
    let (s'', os) := run step s' is
    (s'', o :: os)

section Run

variable (step : σ → ι → σ × ω)

@[simp] theorem run_nil (s : σ) : run step s [] = (s, []) := rfl

theorem run_cons (s : σ) (i : ι) (is : List ι) :
    run step s (i :: is)
      = ((run step (step s i).1 is).1, (step s i).2 :: (run step (step s i).1 is).2) := rfl

theorem run_append (s : σ) (is js : List ι) :
    run step s (is ++ js)
      = ((run step (run step s is).1 js).1,
          (run step s is).2 ++ (run step (run step s is).1 js).2) := by
  induction is generalizing s with
  | nil => rfl
  | cons i is ih => rw [List.cons_append, run_cons, ih, run_cons, List.cons_append]

theorem run_concat (s : σ) (is : List ι) (i : ι) :
    run step s (is ++ [i])
      = ((step (run step s is).1 i).1, (run step s is).2 ++ [(step (run step s is).1 i).2]) :=
  run_append step s is [i]

theorem length_run_answers (s : σ) (is : List ι) : (run step s is).2.length = is.length := by
  induction is generalizing s with
  | nil => rfl
  | cons i is ih => rw [run_cons, List.length_cons, List.length_cons, ih]

end Run

/-- Every step of the run is taken in a state and on an input that satisfy `P`. -/
def Along (step : σ → ι → σ × ω) (P : σ → ι → Prop) : σ → List ι → Prop
  | _, [] => True
  | s, i :: is => P s i ∧ Along step P (step s i).1 is

instance decidableAlong (step : σ → ι → σ × ω) (P : σ → ι → Prop)
    [∀ s i, Decidable (P s i)] : (s : σ) → (is : List ι) → Decidable (Along step P s is)
  | _, [] => isTrue trivial
  | s, i :: is => @instDecidableAnd _ _ inferInstance (decidableAlong step P (step s i).1 is)

theorem Along.of_append {step : σ → ι → σ × ω} {P : σ → ι → Prop} {s : σ} {is js : List ι}
    (h : Along step P s (is ++ js)) : Along step P s is := by
  induction is generalizing s with
  | nil => trivial
  | cons i is ih => exact ⟨h.1, ih h.2⟩

theorem along_concat {step : σ → ι → σ × ω} {P : σ → ι → Prop} {s : σ} {is : List ι} {i : ι} :
    Along step P s (is ++ [i]) ↔ Along step P s is ∧ P (run step s is).1 i := by
  induction is generalizing s with
  | nil => exact and_comm
  | cons j is ih => rw [List.cons_append, Along, ih, run_cons, Along, and_assoc]

/-- A map of states that commutes with every admissible step commutes with every run of admissible
steps, and the answers agree. -/
theorem run_refines {step : σ → ι → σ × ω} {step' : τ → ι → τ × ω} (abs : σ → τ)
    {P : σ → ι → Prop} (h : ∀ s i, P s i → step' (abs s) i = (abs (step s i).1, (step s i).2))
    {s : σ} {is : List ι} (hrun : Along step P s is) :
    run step' (abs s) is = (abs (run step s is).1, (run step s is).2) := by
  induction is generalizing s with
  | nil => rfl
  | cons i is ih =>
    obtain ⟨hi, hrun⟩ := hrun
    rw [run_cons, run_cons, h s i hi, ih hrun]

/-- In states that satisfy the invariant, good answers are admissible steps. `R` is what is known of
the inputs. -/
theorem run_answers_iff {step : σ → ι → σ × ω} {I : σ → Prop} {P : σ → ι → Prop} {Q : ω → Prop}
    {R : ι → Prop} (hiff : ∀ s i, I s → R i → (Q (step s i).2 ↔ P s i))
    (hkeep : ∀ s i, I s → R i → Q (step s i).2 → I (step s i).1) {s : σ} (hs : I s) {is : List ι}
    (his : ∀ i ∈ is, R i) : (∀ o ∈ (run step s is).2, Q o) ↔ Along step P s is := by
  induction is generalizing s with
  | nil => exact iff_of_true (fun o ho ↦ absurd ho List.not_mem_nil) trivial
  | cons i is ih =>
    rw [List.forall_mem_cons] at his
    rw [run_cons, List.forall_mem_cons, Along, ← hiff s i hs his.1]
    exact and_congr_right fun hi ↦ ih (hkeep s i hs his.1 hi) his.2

/-- A machine that need not answer, and what it does answer. -/
theorem run_some_iff {step : σ → ι → σ × Option ω} {I : σ → Prop} {P : σ → ι → Prop} {Q : ω → Prop}
    {R : ι → Prop} (hiff : ∀ s i, I s → R i → ((∀ o, (step s i).2 = some o → Q o) ↔ P s i))
    (hkeep : ∀ s i, I s → R i → (∀ o, (step s i).2 = some o → Q o) → I (step s i).1) {s : σ}
    (hs : I s) {is : List ι} (his : ∀ i ∈ is, R i) :
    (∀ o, some o ∈ (run step s is).2 → Q o) ↔ Along step P s is := by
  have hrun : _ ↔ Along step P s is :=
    run_answers_iff (Q := fun answer : Option ω ↦ ∀ o, answer = some o → Q o) hiff hkeep hs his
  rw [← hrun]
  exact ⟨fun h answer ha o ho ↦ h o (ho ▸ ha), fun h o ho ↦ h _ ho o rfl⟩

/-- A property that holds after a step exactly if it held before and the step is admissible. `I` is
what holds in all states, `R` what is known of the steps. -/
theorem run_iff {step : σ → ι → σ × ω} {I Q : σ → Prop} {R P : σ → ι → Prop}
    (hkeep : ∀ s i, I s → R s i → I (step s i).1)
    (hiff : ∀ s i, I s → R s i → (Q (step s i).1 ↔ Q s ∧ P s i)) {s : σ} (hs : I s) {is : List ι}
    (his : Along step R s is) : Q (run step s is).1 ↔ Q s ∧ Along step P s is := by
  induction is generalizing s with
  | nil => exact (and_iff_left trivial).symm
  | cons i is ih =>
    obtain ⟨hi, his⟩ := his
    rw [run_cons, ih (hkeep s i hs hi) his, hiff s i hs hi, and_assoc, Along]

theorem Along.of_forall {step : σ → ι → σ × ω} {R : ι → Prop} (s : σ) {is : List ι}
    (h : ∀ i ∈ is, R i) : Along step (fun _ ↦ R) s is := by
  induction is generalizing s with
  | nil => trivial
  | cons i is ih =>
    rw [List.forall_mem_cons] at h
    exact ⟨h.1, ih _ h.2⟩

theorem along_and {step : σ → ι → σ × ω} {P Q : σ → ι → Prop} {s : σ} {is : List ι} :
    Along step (fun s i ↦ P s i ∧ Q s i) s is ↔ Along step P s is ∧ Along step Q s is := by
  induction is generalizing s with
  | nil => exact (and_self_iff).symm
  | cons i is ih => rw [Along, ih, Along, Along, and_and_and_comm]

/-- What is required of the inputs alone does not depend on the run. -/
theorem along_iff_forall (step : σ → ι → σ × ω) {R : ι → Prop} (s : σ) {is : List ι} :
    Along step (fun _ ↦ R) s is ↔ ∀ i ∈ is, R i := by
  constructor
  · intro h
    induction is generalizing s with
    | nil => exact List.forall_mem_nil R
    | cons i is ih => exact List.forall_mem_cons.mpr ⟨h.1, ih _ h.2⟩
  · exact Along.of_forall s

/-- Admissible steps that keep the invariant and answer well. -/
theorem run_keeps {step : σ → ι → σ × ω} {I : σ → Prop} {P : σ → ι → Prop} {Q : ω → Prop}
    (hstep : ∀ s i, I s → P s i → I (step s i).1 ∧ Q (step s i).2) {s : σ} (hs : I s) {is : List ι}
    (his : Along step P s is) : I (run step s is).1 ∧ ∀ o ∈ (run step s is).2, Q o := by
  induction is generalizing s with
  | nil => exact ⟨hs, fun o ho ↦ absurd ho List.not_mem_nil⟩
  | cons i is ih =>
    obtain ⟨hnext, hanswer⟩ := hstep s i hs his.1
    obtain ⟨hlast, hanswers⟩ := ih hnext his.2
    rw [run_cons, List.forall_mem_cons]
    exact ⟨hlast, hanswer, hanswers⟩

/-- A relation between history and state that every step keeps holds after every run. -/
theorem run_invariant {step : σ → ι → σ × ω} {I : List ι → σ → Prop} {P : List ι → Prop} {s : σ}
    (hP : ∀ is i, P (is ++ [i]) → P is) (h0 : I [] s)
    (hstep : ∀ is i t, P (is ++ [i]) → I is t → I (is ++ [i]) (step t i).1) {is : List ι}
    (his : P is) : I is (run step s is).1 := by
  induction is using List.reverseRecOn with
  | nil => exact h0
  | append_singleton is i ih =>
    rw [run_concat]
    exact hstep is i _ his (ih (hP is i his))

/-! ## Records -/

section Record

variable {κ : Type*} (collect : σ → ι → List κ) (step : σ → ι → σ × ω)

/-- The machine with a record, to which every step appends. -/
def record (r : List κ × σ) (i : ι) : (List κ × σ) × ω :=
  ((r.1 ++ collect r.2 i, (step r.2 i).1), (step r.2 i).2)

/-- Keeping a record changes nothing. -/
theorem run_record (ks : List κ) (s : σ) (is : List ι) :
    (run (record collect step) (ks, s) is).1.2 = (run step s is).1 ∧
      (run (record collect step) (ks, s) is).2 = (run step s is).2 := by
  induction is generalizing ks s with
  | nil => exact ⟨rfl, rfl⟩
  | cons i is ih =>
    obtain ⟨hstate, hanswers⟩ := ih (ks ++ collect s i) (step s i).1
    exact ⟨hstate, congrArg ((step s i).2 :: ·) hanswers⟩

variable (f : ω → List κ)

/-- A record of what is in the answers. -/
theorem record_answers (ks : List κ) (s : σ) (is : List ι) :
    (run (record (fun s i ↦ f (step s i).2) step) (ks, s) is).1.1
      = ks ++ (run step s is).2.flatMap f := by
  induction is generalizing ks s with
  | nil => exact (List.append_nil ks).symm
  | cons i is ih =>
    have hlast : (run (record (fun s i ↦ f (step s i).2) step) (ks, s) (i :: is)).1.1
        = ks ++ f (step s i).2 ++ (run step (step s i).1 is).2.flatMap f := ih _ _
    rw [hlast, run_cons, List.flatMap_cons, List.append_assoc]

variable {collect step}

/-- What is required of the states alone does not depend on the record. -/
theorem along_record {P : σ → ι → Prop} {ks : List κ} {s : σ} {is : List ι} :
    Along (record collect step) (fun r i ↦ P r.2 i) (ks, s) is ↔ Along step P s is := by
  induction is generalizing ks s with
  | nil => exact Iff.rfl
  | cons i is ih => exact and_congr_right' ih

/-- A property of records that passes to initial segments. -/
theorem along_record_iff {P : List κ → Prop} (hP : ∀ ks ls, P (ks ++ ls) → P ks) {ks : List κ}
    (hks : P ks) {s : σ} {is : List ι} :
    Along (record collect step) (fun r i ↦ P (r.1 ++ collect r.2 i)) (ks, s) is ↔
      P (run (record collect step) (ks, s) is).1.1 := by
  have hstep : ∀ (r : List κ × σ) (i : ι), P (r.1 ++ collect r.2 i) ↔
      P r.1 ∧ P (r.1 ++ collect r.2 i) := fun r i ↦ ⟨fun h ↦ ⟨hP _ _ h, h⟩, And.right⟩
  have hrun : P (run (record collect step) (ks, s) is).1.1 ↔ _ :=
    run_iff (I := fun _ ↦ True) (Q := fun r ↦ P r.1) (R := fun _ _ ↦ True)
      (fun _ _ _ _ ↦ trivial) (fun r i _ _ ↦ hstep r i) trivial
      (Along.of_forall _ fun _ _ ↦ trivial)
  rw [hrun, and_iff_right hks]

end Record

/-- What every step answers in a state that satisfies the invariant, every run answers. -/
theorem run_answers {step : σ → ι → σ × ω} {I : List ι → σ → Prop} {P : List ι → Prop}
    {Q : ω → Prop} {s : σ} (hP : ∀ is i, P (is ++ [i]) → P is) (h0 : I [] s)
    (hstep : ∀ is i t, P (is ++ [i]) → I is t → I (is ++ [i]) (step t i).1 ∧ Q (step t i).2)
    {is : List ι} (his : P is) : ∀ o ∈ (run step s is).2, Q o := by
  induction is using List.reverseRecOn with
  | nil => exact fun o ho ↦ absurd ho List.not_mem_nil
  | append_singleton is i ih =>
    have hinv : I is (run step s is).1 :=
      run_invariant hP h0 (fun is i t hi ht ↦ (hstep is i t hi ht).1) (hP is i his)
    rw [run_concat, List.forall_mem_append, List.forall_mem_singleton]
    exact ⟨ih (hP is i his), (hstep is i _ his hinv).2⟩

/-- Two machines that stay related at every step, and whose answers are related, stay related along
two runs on the same inputs. -/
theorem run_related {ω' : Type*} {step : σ → ι → σ × ω} {step' : τ → ι → τ × ω'} {R : σ → τ → Prop}
    {Q : ω → ω' → Prop}
    (hstep : ∀ s t i, R s t → R (step s i).1 (step' t i).1 ∧ Q (step s i).2 (step' t i).2)
    {s : σ} {t : τ} (h : R s t) (is : List ι) :
    R (run step s is).1 (run step' t is).1 ∧
      List.Forall₂ Q (run step s is).2 (run step' t is).2 := by
  induction is generalizing s t with
  | nil => exact ⟨h, .nil⟩
  | cons i is ih =>
    obtain ⟨hnext, hanswer⟩ := hstep s t i h
    obtain ⟨hlast, hanswers⟩ := ih hnext
    rw [run_cons, run_cons]
    exact ⟨hlast, .cons hanswer hanswers⟩

end Machine
