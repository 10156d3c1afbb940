import Adacc.FuzzingHelper.AflMap
import Adacc.Foundation.TextFile

/-!
# Evaluating new test cases

`main.rs`, `symcc.rs`: every test case that SymCC has produced for an input is run under
`afl-showmap`; if its coverage map changes the cumulative one, the test case is copied to the queue,
under a name derived from the next free id of the queue and the id of the input. A test case that
crashes is copied to the directory of crashes first. `test_input` ignores the errors of an
evaluation and goes on with the next test case.

An evaluation can fail in several places: `afl-showmap` cannot be run or leaves no map, the name of
the input has no id, or the copy fails. What it has done until then stays. The cumulative map is
merged before the copy, so a test case whose copy fails is lost together with its coverage: another
one with the same coverage will be found uninteresting. `evaluationsIntact_iff` says exactly when
failures do no harm.

The outside world answers through `Evaluation`: what happened to the process, what could be read and
which copies succeeded. A panic ends the helper and is `none`. Statistics and log messages are left
out.
-/

namespace Adacc

namespace FuzzingHelper

/-- An error with the contexts that were added to it, the last one first. -/
abbrev Error := List String

/-! ## Paths -/

/-- A component of a path, as `Path::components` yields them. -/
inductive Component
  | rootDir
  | curDir
  | parentDir
  | normal (name : List Char)
  deriving DecidableEq

abbrev PathBuf := List Component

/-- `Path::file_name` -/
def fileName (path : PathBuf) : Option (List Char) :=
  match path.getLast? with
  | some (.normal name) => some name
  | _ => none

def Component.text : Component → List Char
  | .rootDir => []
  | .curDir => ['.']
  | .parentDir => ['.', '.']
  | .normal name => name

/-- `Path::display` -/
def display (path : PathBuf) : String :=
  if path = [.rootDir] then "/"
  else String.ofList (['/'].intercalate (path.map Component.text))

/-- The characters that make up the first `n` bytes; `none` if byte `n` is not a boundary between
characters. -/
def takeBytes : ℕ → List Char → Option (List Char)
  | 0, _ => some []
  | _ + 1, [] => none
  | n + 1, c :: text =>
    if c.utf8Size ≤ n + 1 then (takeBytes (n + 1 - c.utf8Size) text).map (c :: ·) else none

/-- `text.get(start..stop)` -/
def getRange (text : List Char) (start stop : ℕ) : Option (List Char) :=
  (takeBytes start text).bind fun before ↦ takeBytes (stop - start) (text.drop before.length)

/-! ## Copying a test case -/

/-- `TestcaseDir`, with the files that have been copied there and what they are copies of. -/
structure TestcaseDir where
  path : PathBuf
  currentId : UInt64
  files : List (List Char × PathBuf)

/-- `format!("id:{:06},src:{}", current_id, orig_id)` -/
def TestcaseDir.newName (dir : TestcaseDir) (origId : List Char) : List Char :=
  "id:".toList ++ List.leftpad 6 '0' (TextFile.decimal dir.currentId.toNat) ++ ",src:".toList ++
    origId

/-- `target_dir.path.join(new_name)` -/
def TestcaseDir.target (dir : TestcaseDir) (origId : List Char) : PathBuf :=
  dir.path ++ [.normal (dir.newName origId)]

/-- The effect of a successful copy. -/
def TestcaseDir.add (dir : TestcaseDir) (origId : List Char) (testcase : PathBuf) : TestcaseDir :=
  { dir with
    currentId := dir.currentId + 1
    files := dir.files ++ [(dir.newName origId, testcase)] }

/-- `copy_testcase`, where `fsCopy` is the result of `fs::copy` of the test case to a target. -/
def copyTestcase (fsCopy : PathBuf → Except Error Unit) (testcase : PathBuf)
    (targetDir : TestcaseDir) (parent : PathBuf) : Option (TestcaseDir × Except Error Unit) :=
  (fileName parent).map fun origName ↦
    if "id:".toList.isPrefixOf origName then
      match getRange origName 3 9 with
      | some origId =>
        match fsCopy (targetDir.target origId) with
        | .ok () => (targetDir.add origId testcase, .ok ())
        | .error e =>
          (targetDir, .error (("Failed to copy the test case " ++ display testcase ++ " to " ++
            display targetDir.path) :: e))
      | none =>
        (targetDir, .error ["Test case " ++ display parent ++ " does not contain a proper ID"])
    else
      (targetDir,
        .error ["The name of test case " ++ display parent ++ " does not start with an ID"])

/-! ## Evaluating a test case -/

/-- `AflShowmapResult` -/
inductive AflShowmapResult
  | success (map : AflMap)
  | hang
  | crash

/-- What happens to the `afl-showmap` process: an error before its end is known, or its exit code,
if it has one; and what can be read afterwards. -/
structure Showmap where
  status : Except Error (Option ℤ)
  read : String → Option (List UInt8)

/-- `AflConfig::run_showmap` -/
def runShowmap (testcaseBitmap : String) (showmap : Showmap) :
    Option (Except Error AflShowmapResult) :=
  match showmap.status with
  | .error e => some (.error e)
  | .ok (some 0) =>
    match AflMap.load showmap.read testcaseBitmap with
    | .ok map => some (.ok (.success map))
    | .error e =>
      some (.error ["Failed to read the AFL bitmap that afl-showmap should have generated at " ++
        testcaseBitmap, e])
  | .ok (some 1) => some (.ok .hang)
  | .ok (some 2) => some (.ok .crash)
  | .ok _ => none

/-- `TestcaseResult` -/
inductive TestcaseResult
  | uninteresting
  | new
  | hang
  | crash
  deriving DecidableEq

/-- `State` -/
structure State where
  currentBitmap : AflMap
  processedFiles : List PathBuf
  queue : TestcaseDir
  hangs : TestcaseDir
  crashes : TestcaseDir

/-- A test case to be evaluated, and how the world answers. -/
structure Evaluation where
  testcase : PathBuf
  parent : PathBuf
  testcaseBitmap : String
  dontUseShowmap : Bool
  showmap : Showmap
  fsCopy : PathBuf → Except Error Unit

/-- The copy to the queue, which is the last step of a successful evaluation. -/
def enqueue (s : State) (e : Evaluation) (result : TestcaseResult) :
    Option (State × Except Error TestcaseResult) :=
  (copyTestcase e.fsCopy e.testcase s.queue e.parent).map fun copy ↦
    ({ s with queue := copy.1 },
      match copy.2 with
      | .ok () => .ok result
      | .error err =>
        .error (("Failed to enqueue the new test case " ++ display e.testcase) :: err))

/-- `process_new_testcase` -/
def processNewTestcase (s : State) (e : Evaluation) :
    Option (State × Except Error TestcaseResult) :=
  if e.dontUseShowmap then enqueue s e .new
  else
    (runShowmap e.testcaseBitmap e.showmap).bind fun
      | .error err =>
        some (s, .error (("Failed to check whether test case " ++ display e.testcase ++
          " is interesting") :: err))
      | .ok (.success testcaseBitmap) =>
        let (currentBitmap, interesting) := s.currentBitmap.merge testcaseBitmap
        if interesting then enqueue { s with currentBitmap } e .new
        else some ({ s with currentBitmap }, .ok .uninteresting)
      | .ok .hang => some (s, .ok .hang)
      | .ok .crash =>
        (copyTestcase e.fsCopy e.testcase s.crashes e.parent).bind fun
          | (crashes, .error err) => some ({ s with crashes }, .error err)
          | (crashes, .ok ()) => enqueue { s with crashes } e .crash

/-- An evaluation that has returned. -/
structure Evaluated where
  before : State
  evaluation : Evaluation
  after : State
  result : Except Error TestcaseResult

/-- One turn of the loop in `test_input`, unless the helper has panicked. -/
def step (s : Option State) (e : Evaluation) : Option State × Option Evaluated :=
  match s with
  | none => (none, none)
  | some s =>
    match processNewTestcase s e with
    | none => (none, none)
    | some (s', result) => (some s', some ⟨s, e, s', result⟩)

/-- The state after the evaluations of a sequence. -/
def stateAfter (s : State) (es : List Evaluation) : Option State :=
  (Machine.run step (some s) es).1

/-- The evaluations of a sequence that returned. -/
def evaluated (s : State) (es : List Evaluation) : List Evaluated :=
  (Machine.run step (some s) es).2.filterMap id

/-- `SymCCResult` -/
structure SymCCResult where
  testCases : List Evaluation
  killed : Bool

/-- `State::test_input`, where `tmpDir` is the outcome of creating a temporary directory, `run` that
of running SymCC and `fsCopy` that of copying the input itself. -/
def testInput (s : State) (input : PathBuf) (tmpDir : Except Error Unit)
    (run : Except Error SymCCResult) (fsCopy : PathBuf → Except Error Unit) :
    Option (State × Except Error Unit) :=
  match tmpDir, run with
  | .error e, _ =>
    some (s,
      .error ("Failed to create a temporary directory for this execution of SymCC" :: e))
  | .ok (), .error e => some (s, .error ("Failed to run SymCC" :: e))
  | .ok (), .ok result =>
    (stateAfter s result.testCases).bind fun s ↦
      if result.killed then
        (copyTestcase fsCopy input s.hangs input).map fun
          | (hangs, .error e) =>
            ({ s with hangs }, .error ("Failed to archive the test case" :: e))
          | (hangs, .ok ()) =>
            ({ s with hangs, processedFiles := input :: s.processedFiles }, .ok ())
      else some ({ s with processedFiles := input :: s.processedFiles }, .ok ())

/-! ## What a copy can do -/

/-- The id in the name of an input: six bytes after the prefix. -/
def origId (parent : PathBuf) : Option (List Char) :=
  (fileName parent).bind fun origName ↦
    if "id:".toList.isPrefixOf origName then getRange origName 3 9 else none

/-- A copy fails without a panic: the name of the input has no id, or the file cannot be copied. -/
def CopyFails (fsCopy : PathBuf → Except Error Unit) (dir : TestcaseDir) (parent : PathBuf) :
    Prop :=
  (fileName parent).isSome ∧
    ∀ id, origId parent = some id → ∃ err, fsCopy (dir.target id) = .error err

/-- A copy panics, or fails and leaves the directory alone, or succeeds and adds the test case. -/
theorem copyTestcase_cases (fsCopy : PathBuf → Except Error Unit) (testcase : PathBuf)
    (dir : TestcaseDir) (parent : PathBuf) :
    (copyTestcase fsCopy testcase dir parent = none ∧ ¬ CopyFails fsCopy dir parent) ∨
      (∃ err, copyTestcase fsCopy testcase dir parent = some (dir, .error err) ∧
        CopyFails fsCopy dir parent) ∨
      ∃ id, copyTestcase fsCopy testcase dir parent = some (dir.add id testcase, .ok ()) ∧
        ¬ CopyFails fsCopy dir parent := by
  unfold copyTestcase CopyFails origId
  cases hname : fileName parent with
  | none => exact .inl ⟨rfl, fun h ↦ nomatch h.1⟩
  | some origName =>
    simp only [Option.map_some, Option.bind_some, Option.isSome_some, true_and]
    split
    · cases hid : getRange origName 3 9 with
      | none => exact .inr (.inl ⟨_, rfl, fun id h ↦ nomatch h⟩)
      | some id =>
        cases hcopy : fsCopy (dir.target id) with
        | error err =>
          simp only [hcopy]
          refine .inr (.inl ⟨_, rfl, fun id' hid' ↦ ⟨err, ?_⟩⟩)
          rw [← Option.some.inj hid', hcopy]
        | ok u =>
          simp only [hcopy]
          refine .inr (.inr ⟨id, rfl, fun hfails ↦ ?_⟩)
          obtain ⟨err, herr⟩ := hfails id rfl
          rw [hcopy] at herr
          cases herr
    · exact .inr (.inl ⟨_, rfl, fun id h ↦ nomatch h⟩)

/-- The queue after the last step of an evaluation. -/
theorem enqueue_cases (s : State) (e : Evaluation) (result : TestcaseResult) :
    (enqueue s e result = none ∧ ¬ CopyFails e.fsCopy s.queue e.parent) ∨
      (∃ err, enqueue s e result = some (s, .error err) ∧ CopyFails e.fsCopy s.queue e.parent) ∨
      ∃ id, enqueue s e result = some ({ s with queue := s.queue.add id e.testcase }, .ok result) ∧
        ¬ CopyFails e.fsCopy s.queue e.parent := by
  unfold enqueue
  obtain ⟨hcopy, hfails⟩ | ⟨err, hcopy, hfails⟩ | ⟨id, hcopy, hfails⟩ :=
    copyTestcase_cases e.fsCopy e.testcase s.queue e.parent
  · exact .inl ⟨by rw [hcopy, Option.map_none], hfails⟩
  · exact .inr (.inl ⟨_, by rw [hcopy, Option.map_some], hfails⟩)
  · exact .inr (.inr ⟨id, by rw [hcopy, Option.map_some], hfails⟩)

/-! ## When a failure does no harm -/

/-- What `afl-showmap` yields for a test case. -/
def Evaluation.outcome (e : Evaluation) : Option (Except Error AflShowmapResult) :=
  runShowmap e.testcaseBitmap e.showmap

/-- What an evaluation can do. -/
inductive Processed (s : State) (e : Evaluation) :
    Option (State × Except Error TestcaseResult) → Prop
  | unchecked (h : e.dontUseShowmap = true) : Processed s e (enqueue s e .new)
  | showmapPanics (h : e.dontUseShowmap = false) (ho : e.outcome = none) : Processed s e none
  | showmapFails (h : e.dontUseShowmap = false) (err err' : Error)
      (ho : e.outcome = some (.error err)) : Processed s e (some (s, .error err'))
  | uninteresting (h : e.dontUseShowmap = false) (map : AflMap)
      (ho : e.outcome = some (.ok (.success map)))
      (hmerge : (s.currentBitmap.merge map).1 = s.currentBitmap) :
      Processed s e (some (s, .ok .uninteresting))
  | interesting (h : e.dontUseShowmap = false) (map : AflMap)
      (ho : e.outcome = some (.ok (.success map))) :
      Processed s e (enqueue { s with currentBitmap := (s.currentBitmap.merge map).1 } e .new)
  | hang (h : e.dontUseShowmap = false) (ho : e.outcome = some (.ok .hang)) :
      Processed s e (some (s, .ok .hang))
  | crashPanics (h : e.dontUseShowmap = false) (ho : e.outcome = some (.ok .crash))
      (hname : fileName e.parent = none) : Processed s e none
  | crashNotCopied (h : e.dontUseShowmap = false) (ho : e.outcome = some (.ok .crash)) (err : Error)
      (hfails : CopyFails e.fsCopy s.crashes e.parent) : Processed s e (some (s, .error err))
  | crash (h : e.dontUseShowmap = false) (ho : e.outcome = some (.ok .crash)) (id : List Char)
      (hcopied : ¬ CopyFails e.fsCopy s.crashes e.parent) :
      Processed s e (enqueue { s with crashes := s.crashes.add id e.testcase } e .crash)

theorem processed (s : State) (e : Evaluation) : Processed s e (processNewTestcase s e) := by
  unfold processNewTestcase
  rw [← Evaluation.outcome]
  split
  · next h => exact .unchecked h
  · next h =>
    have h := Bool.eq_false_of_not_eq_true h
    cases ho : e.outcome with
    | none => exact .showmapPanics h ho
    | some outcome =>
      rcases outcome with err | (map | - | -)
      · exact .showmapFails h err _ ho
      · rw [Option.bind_some]
        dsimp only
        split
        · exact .interesting h map ho
        · next hmerge =>
          have hself := AflMap.merge_eq_self map (Bool.eq_false_of_not_eq_true hmerge)
          rw [hself]
          exact .uninteresting h map ho hself
      · exact .hang h ho
      · rw [Option.bind_some]
        dsimp only
        obtain ⟨hcopy, hfails⟩ | ⟨err, hcopy, hfails⟩ | ⟨id, hcopy, hfails⟩ :=
          copyTestcase_cases e.fsCopy e.testcase s.crashes e.parent
        · rw [hcopy]
          exact .crashPanics h ho (by simpa [copyTestcase] using hcopy)
        · rw [hcopy]
          exact .crashNotCopied h ho err hfails
        · rw [hcopy]
          exact .crash h ho id hfails

/-! ## When a failure does no harm -/

/-- A failed evaluation leaves the cumulative map and the free ids as they were. -/
def Evaluated.Intact (ev : Evaluated) : Prop :=
  ∀ err, ev.result = .error err →
    ev.after.currentBitmap = ev.before.currentBitmap ∧
      ev.after.queue.currentId = ev.before.queue.currentId ∧
      ev.after.crashes.currentId = ev.before.crashes.currentId

/-- The test case has been copied to the queue. -/
def Evaluated.Enqueued (ev : Evaluated) : Prop :=
  ∃ name, ev.after.queue.files = ev.before.queue.files ++ [(name, ev.evaluation.testcase)]

/-- The test case covers an edge, according to `afl-showmap`. -/
def Evaluated.Covers (ev : Evaluated) (i b : ℕ) : Prop :=
  ∃ map, ev.evaluation.outcome = some (.ok (.success map)) ∧ map.bit i b = true

/-- Nothing is changed before a copy that fails: where the copy to the queue fails, the merge
changes nothing, and if there is a copy to the crashes, it fails too. -/
def Harmless (s : State) (e : Evaluation) : Prop :=
  e.dontUseShowmap = false → CopyFails e.fsCopy s.queue e.parent →
    (∀ map, e.outcome = some (.ok (.success map)) →
      (s.currentBitmap.merge map).1 = s.currentBitmap) ∧
    (e.outcome = some (.ok .crash) → CopyFails e.fsCopy s.crashes e.parent)

/-- What is known of an evaluation that ends with a copy to the queue. -/
theorem intact_enqueue_iff (s t : State) {e : Evaluation} (result : TestcaseResult)
    (hqueue : t.queue = s.queue) :
    (∀ s' r, enqueue t e result = some (s', r) → Evaluated.Intact ⟨s, e, s', r⟩) ↔
      (CopyFails e.fsCopy s.queue e.parent →
        t.currentBitmap = s.currentBitmap ∧ t.crashes.currentId = s.crashes.currentId) := by
  obtain ⟨henq, hfails⟩ | ⟨err, henq, hfails⟩ | ⟨id, henq, hfails⟩ := enqueue_cases t e result
  all_goals rw [hqueue] at hfails
  · exact iff_of_true (fun s' r h ↦ nomatch henq.symm.trans h) fun h ↦ absurd h hfails
  · constructor
    · intro h hfails
      obtain ⟨hbitmap, -, hcrashes⟩ := h t (.error err) henq err rfl
      exact ⟨hbitmap, hcrashes⟩
    · intro h s' r hr err' herr
      obtain ⟨rfl, rfl⟩ := Prod.mk.inj (Option.some.inj (henq.symm.trans hr))
      exact ⟨(h hfails).1, congrArg _ hqueue, (h hfails).2⟩
  · refine iff_of_true (fun s' r hr err' herr ↦ ?_) fun h ↦ absurd h hfails
    obtain ⟨rfl, rfl⟩ := Prod.mk.inj (Option.some.inj (henq.symm.trans hr))
    cases herr

/-- A free id that has been used is another one. -/
theorem currentId_add_ne (dir : TestcaseDir) (id : List Char) (testcase : PathBuf) :
    (dir.add id testcase).currentId ≠ dir.currentId := by
  intro h
  have := UInt64.toNat_inj.mpr h
  simp only [TestcaseDir.add, UInt64.toNat_add, UInt64.reduceToNat] at this
  omega

/-- The exact condition for one evaluation. -/
theorem intact_iff (s : State) (e : Evaluation) :
    (∀ s' r, processNewTestcase s e = some (s', r) → Evaluated.Intact ⟨s, e, s', r⟩) ↔
      Harmless s e := by
  have hsame : ∀ r, ∀ s' r', some (s, r) = some (s', r') → Evaluated.Intact ⟨s, e, s', r'⟩ := by
    intro r s' r' h err herr
    obtain ⟨rfl, rfl⟩ := Prod.mk.inj (Option.some.inj h)
    exact ⟨rfl, rfl, rfl⟩
  have hprocessed := processed s e
  unfold Harmless
  generalize processNewTestcase s e = p at hprocessed ⊢
  cases hprocessed with
  | unchecked h =>
    rw [intact_enqueue_iff s s .new rfl]
    exact iff_of_true (fun _ ↦ ⟨rfl, rfl⟩) fun h' ↦ by simp [h] at h'
  | showmapPanics h ho =>
    exact iff_of_true (fun s' r h ↦ nomatch h) fun _ _ ↦ by simp [ho]
  | showmapFails h err err' ho => exact iff_of_true (hsame _) fun _ _ ↦ by simp [ho]
  | uninteresting h map ho hmerge => exact iff_of_true (hsame _) fun _ _ ↦ by simp [ho, hmerge]
  | interesting h map ho =>
    refine (intact_enqueue_iff s { s with currentBitmap := (s.currentBitmap.merge map).1 } .new
      rfl).trans ?_
    simp [h, ho]
  | hang h ho => exact iff_of_true (hsame _) fun _ _ ↦ by simp [ho]
  | crashPanics h ho hname =>
    refine iff_of_true (fun s' r h ↦ nomatch h) fun _ hfails ↦ ?_
    rw [CopyFails, hname] at hfails
    exact nomatch hfails.1
  | crashNotCopied h ho err hfails => exact iff_of_true (hsame _) fun _ _ ↦ by simp [ho, hfails]
  | crash h ho id hcopied =>
    refine (intact_enqueue_iff s { s with crashes := s.crashes.add id e.testcase } .crash
      rfl).trans ?_
    simp [h, ho, hcopied, currentId_add_ne]

/-- An edge that a harmless evaluation adds is covered by its test case, which is enqueued. -/
theorem covered_of_harmless {s s' : State} {e : Evaluation} {r : Except Error TestcaseResult}
    (h : Harmless s e) (hr : processNewTestcase s e = some (s', r)) {i b : ℕ}
    (hbit : s'.currentBitmap.bit i b = true) :
    s.currentBitmap.bit i b = true ∨
      Evaluated.Enqueued ⟨s, e, s', r⟩ ∧ Evaluated.Covers ⟨s, e, s', r⟩ i b := by
  have hsame : ∀ {t : State} {result : TestcaseResult},
      t.currentBitmap = s.currentBitmap → enqueue t e result = some (s', r) →
      s.currentBitmap.bit i b = true := by
    intro t result ht henq
    obtain ⟨henq', -⟩ | ⟨err, henq', -⟩ | ⟨id, henq', -⟩ := enqueue_cases t e result
    · exact nomatch henq'.symm.trans henq
    all_goals
      obtain ⟨rfl, rfl⟩ := Prod.mk.inj (Option.some.inj (henq'.symm.trans henq))
      exact ht ▸ hbit
  have hprocessed := processed s e
  generalize processNewTestcase s e = p at hprocessed hr
  cases hprocessed with
  | unchecked _ => exact .inl (hsame rfl hr)
  | showmapPanics _ _ => cases hr
  | showmapFails _ _ _ _ | uninteresting _ _ _ _ | hang _ _ | crashNotCopied _ _ _ _ =>
    obtain ⟨rfl, rfl⟩ := Prod.mk.inj (Option.some.inj hr)
    exact .inl hbit
  | interesting h' map ho =>
    obtain ⟨henq, hfails⟩ | ⟨err, henq, hfails⟩ | ⟨id, henq, hfails⟩ :=
      enqueue_cases { s with currentBitmap := (s.currentBitmap.merge map).1 } e .new
    · exact nomatch henq.symm.trans hr
    · -- nothing was merged if the copy failed
      exact .inl (hsame ((h h' hfails).1 map ho) hr)
    · obtain ⟨rfl, rfl⟩ := Prod.mk.inj (Option.some.inj (henq.symm.trans hr))
      exact (AflMap.bit_of_bit_merge map hbit).imp_right fun hmap ↦ ⟨⟨_, rfl⟩, map, ho, hmap⟩
  | crashPanics _ _ _ => cases hr
  | crash _ _ id _ =>
    exact .inl (hsame (t := { s with crashes := s.crashes.add id e.testcase }) rfl hr)

/-! ## Sequences of evaluations -/

/-- Failed evaluations leave the state intact, and every edge in the cumulative map was there before
or is covered by a test case that has been copied to the queue. -/
structure EvaluationsIntact (s : State) (es : List Evaluation) : Prop where
  intact : ∀ ev ∈ evaluated s es, ev.Intact
  covered : ∀ before after, es = before ++ after → ∀ t, stateAfter s before = some t →
    ∀ i b, t.currentBitmap.bit i b = true →
      s.currentBitmap.bit i b = true ∨ ∃ ev ∈ evaluated s before, ev.Enqueued ∧ ev.Covers i b

/-- The evaluation is harmless, if the helper still runs. -/
def HarmlessStep (s : Option State) (e : Evaluation) : Prop := ∀ t, s = some t → Harmless t e

theorem run_none (es : List Evaluation) : (Machine.run step none es).1 = none := by
  induction es with
  | nil => rfl
  | cons e es ih => exact ih

theorem step_some {s s' : State} {e : Evaluation} {r : Except Error TestcaseResult}
    (h : processNewTestcase s e = some (s', r)) :
    step (some s) e = (some s', some ⟨s, e, s', r⟩) := by
  rw [step, h]

theorem step_panic {s : State} {e : Evaluation} (h : processNewTestcase s e = none) :
    step (some s) e = (none, none) := by
  rw [step, h]

private theorem step_intact_iff (s : Option State) (e : Evaluation) :
    (∀ ev, (step s e).2 = some ev → ev.Intact) ↔ HarmlessStep s e := by
  cases s with
  | none => exact iff_of_true (fun ev h ↦ nomatch h) fun t h ↦ nomatch h
  | some s =>
    have hstep : HarmlessStep (some s) e ↔ Harmless s e :=
      ⟨fun h ↦ h s rfl, fun h t ht ↦ Option.some.inj ht ▸ h⟩
    rw [hstep, ← intact_iff]
    cases hp : processNewTestcase s e with
    | none =>
      rw [step_panic hp]
      exact iff_of_true (fun ev h ↦ nomatch h) fun s' r h ↦ nomatch h
    | some p =>
      rw [step_some hp]
      constructor
      · intro h s' r hr
        obtain rfl := Option.some.inj hr
        exact h _ rfl
      · intro h ev hev
        rw [← Option.some.inj hev]
        exact h _ _ rfl

theorem intact_iff_along (s : State) (es : List Evaluation) :
    (∀ ev ∈ evaluated s es, ev.Intact) ↔ Machine.Along step HarmlessStep (some s) es := by
  have hevaluated : ∀ ev, ev ∈ evaluated s es ↔ some ev ∈ (Machine.run step (some s) es).2 := by
    intro ev
    simp only [evaluated, List.mem_filterMap, id_eq, exists_eq_right]
  simp only [hevaluated]
  exact Machine.run_some_iff (I := fun _ ↦ True) (R := fun _ ↦ True)
    (fun s e _ _ ↦ step_intact_iff s e) (fun _ _ _ _ _ ↦ trivial) trivial fun _ _ ↦ trivial

/-- Along harmless evaluations every new edge is covered by an enqueued test case. -/
theorem covered_of_along {s t : State} {es : List Evaluation}
    (h : Machine.Along step HarmlessStep (some s) es) (ht : stateAfter s es = some t) {i b : ℕ}
    (hbit : t.currentBitmap.bit i b = true) :
    s.currentBitmap.bit i b = true ∨ ∃ ev ∈ evaluated s es, ev.Enqueued ∧ ev.Covers i b := by
  induction es generalizing s with
  | nil =>
    rw [← Option.some.inj ht] at hbit
    exact .inl hbit
  | cons e es ih =>
    obtain ⟨he, hes⟩ := h
    cases hp : processNewTestcase s e with
    | none =>
      rw [stateAfter, Machine.run_cons, step_panic hp, run_none] at ht
      cases ht
    | some p =>
      rw [step_some hp] at hes
      rw [stateAfter, Machine.run_cons, step_some hp] at ht
      have hcons : evaluated s (e :: es) = ⟨s, e, p.1, p.2⟩ :: evaluated p.1 es := by
        rw [evaluated, Machine.run_cons, step_some hp]
        rfl
      rw [hcons]
      rcases ih hes ht with hfirst | ⟨ev, hev, hcovers⟩
      -- an edge of the state after the first evaluation is new or not
      · exact (covered_of_harmless (he s rfl) hp hfirst).imp_right fun hcovers ↦
          ⟨_, List.mem_cons_self, hcovers⟩
      · exact .inr ⟨ev, List.mem_cons_of_mem _ hev, hcovers⟩

/-- Failures do no harm exactly if every evaluation is harmless in the state that it meets. -/
theorem evaluationsIntact_iff (s : State) (es : List Evaluation) :
    EvaluationsIntact s es ↔ Machine.Along step HarmlessStep (some s) es := by
  rw [← intact_iff_along]
  constructor
  · exact EvaluationsIntact.intact
  · intro h
    refine ⟨h, fun before after hes t ht i b hbit ↦ covered_of_along ?_ ht hbit⟩
    rw [intact_iff_along, hes] at h
    exact h.of_append

/-- The evaluations in `test_input` are all that it does to the cumulative map, the queue and the
crashes. -/
theorem testInput_spec {s s' : State} {input : PathBuf} {result : SymCCResult}
    {fsCopy : PathBuf → Except Error Unit} {r : Except Error Unit}
    (h : testInput s input (.ok ()) (.ok result) fsCopy = some (s', r)) :
    ∃ t, stateAfter s result.testCases = some t ∧ s'.currentBitmap = t.currentBitmap ∧
      s'.queue = t.queue ∧ s'.crashes = t.crashes := by
  rw [testInput, Option.bind_eq_some_iff] at h
  obtain ⟨t, ht, h⟩ := h
  refine ⟨t, ht, ?_⟩
  split at h
  · obtain ⟨⟨hangs, copied⟩, -, h⟩ := Option.map_eq_some_iff.mp h
    cases copied with
    | error e =>
      obtain ⟨rfl, -⟩ := Prod.mk.inj h
      exact ⟨rfl, rfl, rfl⟩
    | ok u =>
      obtain ⟨rfl, -⟩ := Prod.mk.inj h
      exact ⟨rfl, rfl, rfl⟩
  · obtain ⟨rfl, -⟩ := Prod.mk.inj (Option.some.inj h)
    exact ⟨rfl, rfl, rfl⟩

/-- `State::initialize`, in an empty directory. -/
def State.initializeIn (symccDir : PathBuf) : State where
  currentBitmap := .new
  processedFiles := []
  queue := ⟨symccDir ++ [.normal "queue".toList], 0, []⟩
  hangs := ⟨symccDir ++ [.normal "hangs".toList], 0, []⟩
  crashes := ⟨symccDir ++ [.normal "crashes".toList], 0, []⟩

/-- The first test case has coverage, but there is no space for the copy: the map is changed and
the evaluation fails. -/
theorem not_evaluationsIntact : ¬ ∀ s es, EvaluationsIntact s es := by
  intro h
  have hharmless := (intact_iff_along _ _).mp (h (.initializeIn [])
    [⟨[.normal ['t']], [.normal "id:000000,orig:seed".toList], "testcase_bitmap", false,
      ⟨.ok (some 0), fun _ ↦ some [1]⟩,
      fun _ ↦ .error ["No space left on device (os error 28)"]⟩]).intact
  have hfails : CopyFails (fun _ ↦ .error ["No space left on device (os error 28)"])
      (State.initializeIn []).queue [.normal "id:000000,orig:seed".toList] :=
    ⟨rfl, fun id hid ↦ ⟨_, rfl⟩⟩
  have hmerge := (hharmless.1 _ rfl rfl hfails).1 ⟨[1]⟩ rfl
  exact absurd hmerge (by decide)

end FuzzingHelper

end Adacc
