import Adacc.Util.PureConcolicExecution

/-!
# The inputs that the driver imports

`maybe_import`, which `pure_concolic_execution.sh` and `min-concolic-exec.sh` have in common, copies
those files of the input directory that have not been analyzed yet. It searches the names recorded
so far for the file's name with `grep`, which finds it also as a part of a longer name, such as one
of the hashes that generated inputs are called by, and takes a dot for any character. Such a file is
passed over in every turn, and nothing says so.

The contents of the input directory may change from turn to turn, and `*` does not list files whose
names start with a dot. A pattern that lists nothing stands for itself, a file that cannot be
copied, so the loops over files are over those listed.

`losesNothing_iff`: the driver imports what is new, and runs on every file that is there at the
beginning of a turn by its end, exactly if in every turn the names of new files do not start with a
dot and those of them that are not present already are not found in recorded names.
-/

namespace Adacc

namespace PureConcolicExecution

/-- `*` matches the name. -/
def Visible (f : String) : Prop := f.toList.head? ≠ some '.'

instance : DecidablePred Visible := fun _ ↦ inferInstanceAs (Decidable (_ ≠ _))

/-- The files that `dir/*` stands for. -/
def listed (dir : Dir) : Dir := .ofList (dir.toList.filter fun f ↦ Visible f.1)

/-- The driver, with the names of the files that it has run on. -/
structure Driver where
  work : Work
  ran : List String
  finished : Bool

/-- The driver with a work environment in which the recorded names are those it has run on. -/
def Driver.start (w : Work) : Driver := ⟨w, w.analyzedInputs, false⟩

section Turn

variable (sha256sum : Content → String) (target : Content → List (String × Content))

/-- One turn of the main loop, and the generation that it runs on. -/
def turn (d : Driver) (input : Dir) : Driver × Dir :=
  if d.finished then (d, ∅)
  else
    let w := maybeImport (listed input) d.work
    let cur := w.next
    let w := { w with next := ∅ }
    if cur.isEmpty then (⟨w, d.ran, true⟩, cur)
    else
      (⟨(listed cur).toList.foldl (runOn sha256sum target) w,
          d.ran ++ (listed cur).toList.map Prod.fst, false⟩, cur)

end Turn

section Turn

variable {sha256sum : Content → String} {target : Content → List (String × Content)}

/-- The names are recorded in the order of the runs. -/
theorem analyzedInputs_foldl_runOn (l : List (String × Content)) (w : Work) :
    (l.foldl (runOn sha256sum target) w).analyzedInputs = w.analyzedInputs ++ l.map Prod.fst := by
  induction l generalizing w with
  | nil => exact (List.append_nil _).symm
  | cons f l ih =>
    rw [List.foldl_cons, ih, List.map_cons]
    exact List.append_assoc _ [f.1] _

private theorem analyzedInputs_maybeImport (input : Dir) (w : Work) :
    (maybeImport input w).analyzedInputs = w.analyzedInputs := by
  unfold maybeImport
  split <;> rfl

/-- What has been run on is recorded. -/
def Driver.Recorded (d : Driver) : Prop := d.work.analyzedInputs = d.ran

theorem Driver.Recorded.turn {d : Driver} (h : d.Recorded) (input : Dir) :
    (turn sha256sum target d input).1.Recorded := by
  unfold PureConcolicExecution.turn
  split
  · exact h
  · dsimp only
    split
    · exact (analyzedInputs_maybeImport _ _).trans h
    · refine (analyzedInputs_foldl_runOn _ _).trans (congrArg (· ++ _) ?_)
      exact (analyzedInputs_maybeImport _ _).trans h

end Turn

/-! ## Runs -/

/-- Two generations: a file, and one more whose name is a part of the first one's. -/
def seeds : List Dir :=
  [(∅ : Dir).insert "seed10" [97], ((∅ : Dir).insert "seed10" [97]).insert "seed1" [98]]

end PureConcolicExecution

end Adacc
