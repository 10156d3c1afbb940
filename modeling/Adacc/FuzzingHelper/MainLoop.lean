import Adacc.FuzzingHelper.ArchivedTestcases
import Adacc.FuzzingHelper.Commands
import Adacc.Foundation.Machine

/-!
# The main loop of the helper

`main.rs`: in every turn the helper chooses the best input of the fuzzer that it has not processed
yet, runs SymCC on it and evaluates the test cases that come out, archives the input if the program
was killed, and adds the execution to its statistics. When there is no input it waits. Now and then
it reports.

Everything that `main` calls is modelled elsewhere; here are whole sessions. An error that leaves
`test_input` leaves `main` too, so the helper ends with the first input that cannot be run or
archived, and a panic ends it at once. `runs_iff` says exactly which turns the helper survives.

The world answers anew in every turn. Paths are kept both as they are and decoded, since the names
of copies are made from decoded names. The clock is left to the world, which says how long ago the
last report was.
-/

namespace Adacc

namespace FuzzingHelper

namespace MainLoop

open Scheduling Statistics Commands

/-! ## Turns -/

/-- A path as far as its name and the messages about it go. -/
def toPathBuf (path : EntryPath) : PathBuf :=
  [.normal path.dir.toStringLossy, .normal path.name.toStringLossy]

def toOsString (path : EntryPath) : OsString := join path.dir path.name

/-- What does not change while the helper runs; `digit` says what `\d` matches. -/
structure Setup where
  digit : Char → Bool
  symcc : SymCC
  aflConfig : AflConfig
  dontUseShowmap : Bool

/-- How the world answers in a turn: what the queue contains, whether there is a temporary
directory, how SymCC and `afl-showmap` end, what can be copied, and the time since the last report
and how many lines of the next one can be written. -/
structure Turn where
  fs : FileSystem
  readDir : ReadDir
  tmpDir : Except Error OsString
  symcc : World
  showmap : EntryPath → Command → Showmap
  fsCopy : EntryPath → PathBuf → Except Error Unit
  elapsed : Duration
  written : ℕ

/-- `State`, with the processed files as they are. -/
structure Helper where
  state : State
  seen : List EntryPath
  stats : Stats
  statsFile : List Stats.Line

/-- `State::initialize`, in a new directory. -/
def Helper.initializeIn (symccDir : PathBuf) : Helper :=
  ⟨.initializeIn symccDir, [], .default, []⟩

/-- The execution of SymCC in `test_input`, with its temporary directory. -/
def execution (setup : Setup) (w : Turn) (input : EntryPath) :
    Except Error (OsString × Statistics.SymCCResult) := do
  let tmpDir ← withContext
    "Failed to create a temporary directory for this execution of SymCC" w.tmpDir
  let result ← withContext "Failed to run SymCC"
    (setup.symcc.run setup.digit (toOsString input) (join tmpDir (osString "output")) w.symcc)
  return (tmpDir, result)

/-- The arguments of `process_new_testcase`. -/
def evaluation (setup : Setup) (w : Turn) (input : EntryPath) (tmpDir : OsString)
    (testcase : EntryPath) : Evaluation :=
  let testcaseBitmap := join tmpDir (osString "testcase_bitmap")
  { testcase := toPathBuf testcase
    parent := toPathBuf input
    testcaseBitmap := testcaseBitmap.display
    dontUseShowmap := setup.dontUseShowmap
    showmap := w.showmap testcase
      (setup.aflConfig.showmapCommand testcaseBitmap (toOsString testcase))
    fsCopy := w.fsCopy testcase }

/-- `test_input`, with the statistics. -/
def testInput (setup : Setup) (h : Helper) (w : Turn) (input : EntryPath) :
    Option (Helper × Except Error Statistics.SymCCResult) :=
  match execution setup w input with
  | .error e => some (h, .error e)
  | .ok (tmpDir, result) =>
    let testCases := result.testCases.map (evaluation setup w input tmpDir)
    (FuzzingHelper.testInput h.state (toPathBuf input) (.ok ()) (.ok ⟨testCases, result.killed⟩)
      (w.fsCopy input)).bind fun
      | (state, .error e) => some ({ h with state }, .error e)
      | (state, .ok ()) =>
        (h.stats.addExecution result).map fun stats ↦
          ({ h with state, seen := input :: h.seen, stats }, .ok result)

/-- `STATS_INTERVAL_SEC` -/
def statsIntervalSec : ℕ := 60

/-- The report at the end of a turn. -/
def report (h : Helper) (w : Turn) : Option Helper :=
  if statsIntervalSec < w.elapsed.asSecs then
    h.stats.log.map fun lines ↦ { h with statsFile := h.statsFile ++ lines.take w.written }
  else some h

/-- What an execution was about. -/
abbrev Tested := EntryPath × Statistics.SymCCResult

/-- A turn of the loop in `main`. -/
def turn (setup : Setup) (h : Helper) (w : Turn) : Option (Helper × Except Error (Option Tested)) :=
  match bestNewTestcase w.fs setup.aflConfig.queue w.readDir h.seen with
  | .error e => some (h, .error ("Failed to check for new test cases" :: e))
  | .ok none => (report h w).map fun h ↦ (h, .ok none)
  | .ok (some input) =>
    (testInput setup h w input).bind fun
      | (h, .error e) => some (h, .error e)
      | (h, .ok result) => (report h w).map fun h ↦ (h, .ok (some (input, result)))

/-- The helper runs, `main` has returned an error, or there was a panic. -/
inductive Status
  | running (h : Helper)
  | returned (h : Helper) (e : Error)
  | panicked

/-- One turn, if the helper still runs. -/
def step (setup : Setup) : Status → Turn → Status × Option Tested
  | .running h, w =>
    match turn setup h w with
    | none => (.panicked, none)
    | some (h', .error e) => (.returned h' e, none)
    | some (h', .ok tested) => (.running h', tested)
  | status, _ => (status, none)

/-- The end of a session. -/
def status (setup : Setup) (symccDir : PathBuf) (ws : List Turn) : Status :=
  (Machine.run (step setup) (.running (.initializeIn symccDir)) ws).1

/-- The executions of a session that have been added to the statistics. -/
def tested (setup : Setup) (symccDir : PathBuf) (ws : List Turn) : List Tested :=
  (Machine.run (step setup) (.running (.initializeIn symccDir)) ws).2.filterMap id

/-! ## What the evaluations leave alone -/

/-- A test case is copied to the queue or to the crashes, and never archived. -/
theorem processNewTestcase_frame {s s' : State} {e : Evaluation}
    {r : Except Error TestcaseResult} (h : processNewTestcase s e = some (s', r)) :
    s'.hangs = s.hangs ∧ s'.processedFiles = s.processedFiles := by
  have henqueue : ∀ {t : State} {result : TestcaseResult}, t.hangs = s.hangs →
      t.processedFiles = s.processedFiles → enqueue t e result = some (s', r) →
      s'.hangs = s.hangs ∧ s'.processedFiles = s.processedFiles := by
    intro t result hhangs hprocessed henq
    obtain ⟨henq', -⟩ | ⟨err, henq', -⟩ | ⟨id, henq', -⟩ := enqueue_cases t e result
    · exact nomatch henq'.symm.trans henq
    all_goals
      obtain ⟨rfl, rfl⟩ := Prod.mk.inj (Option.some.inj (henq'.symm.trans henq))
      exact ⟨hhangs, hprocessed⟩
  have hprocessed := FuzzingHelper.processed s e
  generalize processNewTestcase s e = p at hprocessed h
  cases hprocessed with
  | unchecked _ => exact henqueue rfl rfl h
  | showmapPanics _ _ | crashPanics _ _ _ => cases h
  | showmapFails _ _ _ _ | uninteresting _ _ _ _ | hang _ _ | crashNotCopied _ _ _ _ =>
    obtain ⟨rfl, rfl⟩ := Prod.mk.inj (Option.some.inj h)
    exact ⟨rfl, rfl⟩
  | interesting _ map _ =>
    exact henqueue (t := { s with currentBitmap := (s.currentBitmap.merge map).1 }) rfl rfl h
  | crash _ _ id _ =>
    exact henqueue (t := { s with crashes := s.crashes.add id e.testcase }) rfl rfl h

private theorem stateAfter_cons (s : State) (e : Evaluation) (es : List Evaluation) :
    stateAfter s (e :: es) = (processNewTestcase s e).bind fun p ↦ stateAfter p.1 es := by
  rw [stateAfter, Machine.run_cons]
  cases h : processNewTestcase s e with
  | none => rw [step_panic h, run_none, Option.bind_none]
  | some p => rw [step_some h, Option.bind_some, stateAfter]

private theorem stateAfter_frame {s s' : State} {es : List Evaluation}
    (h : stateAfter s es = some s') :
    s'.hangs = s.hangs ∧ s'.processedFiles = s.processedFiles := by
  induction es generalizing s with
  | nil =>
    obtain rfl := Option.some.inj h
    exact ⟨rfl, rfl⟩
  | cons e es ih =>
    rw [stateAfter_cons] at h
    obtain ⟨p, hp, h⟩ := Option.bind_eq_some_iff.mp h
    obtain ⟨hhangs, hprocessed⟩ := ih h
    obtain ⟨hhangs', hprocessed'⟩ := processNewTestcase_frame hp
    exact ⟨hhangs.trans hhangs', hprocessed.trans hprocessed'⟩

/-! ## When a panic is in the evaluations -/

/-- An evaluation panics if `afl-showmap` is asked and ends in an unexpected way. -/
def Panics (e : Evaluation) : Prop := e.dontUseShowmap = false ∧ e.outcome = none

private theorem isSome_enqueue {s : State} {e : Evaluation} (hname : (fileName e.parent).isSome)
    (result : TestcaseResult) : (enqueue s e result).isSome := by
  rw [enqueue, copyTestcase, Option.isSome_map, Option.isSome_map]
  exact hname

private theorem processNewTestcase_eq_none_iff {s : State} {e : Evaluation}
    (hname : (fileName e.parent).isSome) : processNewTestcase s e = none ↔ Panics e := by
  have henqueue : ∀ {t : State} {result : TestcaseResult}, enqueue t e result ≠ none :=
    fun {t result} ↦ Option.isSome_iff_ne_none.mp (isSome_enqueue hname result)
  have hanswer : ∀ {o}, e.outcome = some o → ¬ Panics e := fun {o} ho hpanics ↦
    Option.some_ne_none o (ho.symm.trans hpanics.2)
  have hprocessed := FuzzingHelper.processed s e
  generalize processNewTestcase s e = p at hprocessed
  cases hprocessed with
  | unchecked h => exact iff_of_false henqueue fun hpanics ↦ Bool.noConfusion (h ▸ hpanics.1)
  | showmapPanics h ho => exact iff_of_true rfl ⟨h, ho⟩
  | showmapFails _ _ _ ho | uninteresting _ _ ho _ | hang _ ho | crashNotCopied _ ho _ _ =>
    exact iff_of_false (Option.some_ne_none _) (hanswer ho)
  | interesting _ _ ho | crash _ ho _ _ => exact iff_of_false henqueue (hanswer ho)
  | crashPanics _ _ hnone =>
    rw [hnone] at hname
    cases hname

private theorem stateAfter_eq_none_iff {s : State} {es : List Evaluation}
    (hname : ∀ e ∈ es, (fileName e.parent).isSome) :
    stateAfter s es = none ↔ ∃ e ∈ es, Panics e := by
  induction es generalizing s with
  | nil => exact iff_of_false (Option.some_ne_none s) fun ⟨_, he, _⟩ ↦ List.not_mem_nil he
  | cons e es ih =>
    obtain ⟨he, hes⟩ := List.forall_mem_cons.mp hname
    rw [stateAfter_cons, List.exists_mem_cons_iff, ← processNewTestcase_eq_none_iff (s := s) he]
    cases processNewTestcase s e with
    | none => exact iff_of_true rfl (.inl rfl)
    | some p =>
      rw [Option.bind_some, ih hes]
      exact (or_iff_right (Option.some_ne_none p)).symm

/-! ## Testing an input -/

/-- The input can be archived: its name has an id and the copy succeeds. -/
def Archivable (fsCopy : PathBuf → Except Error Unit) (dir : TestcaseDir) (input : PathBuf) :
    Prop :=
  ∃ id, origId input = some id ∧ fsCopy (dir.target id) = .ok ()

/-- A copy of a file with a name fails, or the directory has one more file. -/
theorem copyTestcase_of_name {parent : PathBuf} (hname : (fileName parent).isSome)
    (fsCopy : PathBuf → Except Error Unit) (testcase : PathBuf) (dir : TestcaseDir) :
    (¬ Archivable fsCopy dir parent ∧
        ∃ err, copyTestcase fsCopy testcase dir parent = some (dir, .error err)) ∨
      (Archivable fsCopy dir parent ∧ ∃ id, origId parent = some id ∧
        copyTestcase fsCopy testcase dir parent = some (dir.add id testcase, .ok ())) := by
  obtain ⟨hcopy, -⟩ | ⟨err, hcopy, -, hfails⟩ | ⟨id, hcopy, -⟩ :=
    copyTestcase_cases fsCopy testcase dir parent
  · rw [copyTestcase, Option.map_eq_none_iff] at hcopy
    rw [hcopy] at hname
    cases hname
  · refine .inl ⟨?_, err, hcopy⟩
    rintro ⟨id, hid, hok⟩
    obtain ⟨err', herr⟩ := hfails id hid
    cases hok.symm.trans herr
  · obtain ⟨id', hid', hok, hadd⟩ := copyTestcase_ok hcopy
    exact .inr ⟨⟨id', hid', hok⟩, id', hid', by rw [hcopy, hadd]⟩

/-- The hangs after an input has been tested. -/
def Archived (dir dir' : TestcaseDir) (input : PathBuf) (killed : Bool) : Prop :=
  if killed then ∃ id, origId input = some id ∧ dir' = dir.add id input else dir' = dir

/-- The evaluations panic, or a killed input cannot be archived, or the input has been processed. -/
theorem processInput_cases {s : State} {input : PathBuf} {result : SymCCResult}
    (hname : (fileName input).isSome) (hnames : ∀ e ∈ result.testCases, (fileName e.parent).isSome)
    (fsCopy : PathBuf → Except Error Unit) :
    ((∃ e ∈ result.testCases, Panics e) ∧
        FuzzingHelper.testInput s input (.ok ()) (.ok result) fsCopy = none) ∨
      (∀ e ∈ result.testCases, ¬ Panics e) ∧
        ((result.killed = true ∧ ¬ Archivable fsCopy s.hangs input ∧
            ∃ s' err, FuzzingHelper.testInput s input (.ok ()) (.ok result) fsCopy
              = some (s', .error err) ∧ s'.hangs = s.hangs ∧
                s'.processedFiles = s.processedFiles) ∨
          (result.killed = true → Archivable fsCopy s.hangs input) ∧
            ∃ s', FuzzingHelper.testInput s input (.ok ()) (.ok result) fsCopy
              = some (s', .ok ()) ∧ s'.processedFiles = input :: s.processedFiles ∧
                Archived s.hangs s'.hangs input result.killed) := by
  unfold FuzzingHelper.testInput
  dsimp only
  cases hstate : stateAfter s result.testCases with
  | none => exact .inl ⟨(stateAfter_eq_none_iff hnames).mp hstate, rfl⟩
  | some t =>
    have hpanics : ∀ e ∈ result.testCases, ¬ Panics e := by
      intro e he hpanic
      have hnone := (stateAfter_eq_none_iff (s := s) hnames).mpr ⟨e, he, hpanic⟩
      exact Option.some_ne_none t (hstate.symm.trans hnone)
    obtain ⟨hhangs, hprocessed⟩ := stateAfter_frame hstate
    refine .inr ⟨hpanics, ?_⟩
    rw [Option.bind_some]
    cases hkilled : result.killed with
    | false =>
      refine .inr ⟨fun h ↦ (Bool.false_ne_true h).elim, _, rfl, ?_, hhangs⟩
      exact congrArg _ hprocessed
    | true =>
      rw [if_pos rfl, ← hhangs]
      obtain ⟨hnot, err, hcopy⟩ | ⟨harchivable, id, hid, hcopy⟩ :=
        copyTestcase_of_name hname fsCopy input t.hangs
      · rw [hcopy]
        exact .inl ⟨rfl, hnot, _, _, rfl, rfl, hprocessed⟩
      · rw [hcopy]
        exact .inr ⟨fun _ ↦ harchivable, _, rfl, congrArg _ hprocessed, id, hid, rfl⟩

/-- An input can be run, its test cases can be evaluated, and it can be archived if it has to be. -/
structure Executable (setup : Setup) (h : Helper) (w : Turn) (input : EntryPath)
    (result : Statistics.SymCCResult) : Prop where
  executed : ∃ tmpDir, execution setup w input = .ok (tmpDir, result) ∧
    ∀ t ∈ result.testCases, ¬ Panics (evaluation setup w input tmpDir t)
  archived : result.killed = true → Archivable (w.fsCopy input) h.state.hangs (toPathBuf input)

/-- The loop goes on after an input. -/
structure Survives (setup : Setup) (h : Helper) (w : Turn) (input : EntryPath)
    (result : Statistics.SymCCResult) : Prop extends Executable setup h w input result where
  counted : (h.stats.addExecution result).isSome

/-- What an input that has been tested leaves behind. -/
structure After (h : Helper) (input : EntryPath) (result : Statistics.SymCCResult)
    (h' : Helper) : Prop where
  seen : h'.seen = input :: h.seen
  processedFiles : h'.state.processedFiles = toPathBuf input :: h.state.processedFiles
  stats : h.stats.addExecution result = some h'.stats
  statsFile : h'.statsFile = h.statsFile
  hangs : Archived h.state.hangs h'.state.hangs (toPathBuf input) result.killed

/-- The account of the executions is what it was. -/
structure SameAccount (h h' : Helper) : Prop where
  seen : h'.seen = h.seen
  processedFiles : h'.state.processedFiles = h.state.processedFiles
  stats : h'.stats = h.stats
  hangs : h'.state.hangs = h.state.hangs

theorem SameAccount.refl (h : Helper) : SameAccount h h := ⟨rfl, rfl, rfl, rfl⟩

/-- An input is tested and counted, or the helper ends with the account as it was. -/
theorem testInput_cases (setup : Setup) (h : Helper) (w : Turn) (input : EntryPath) :
    (∃ result h', Survives setup h w input result ∧
        testInput setup h w input = some (h', .ok result) ∧ After h input result h') ∨
      ((∀ result, ¬ Survives setup h w input result) ∧
        (testInput setup h w input = none ∨
          ∃ h' e, testInput setup h w input = some (h', .error e) ∧ SameAccount h h')) := by
  cases hexec : execution setup w input with
  | error e =>
    refine .inr ⟨fun result hs ↦ ?_, .inr ⟨h, e, by rw [testInput, hexec], .refl h⟩⟩
    obtain ⟨tmpDir, hok, -⟩ := hs.executed
    cases hexec.symm.trans hok
  | ok p =>
    obtain ⟨tmpDir, result⟩ := p
    have hunique : ∀ {result'}, Survives setup h w input result' → result' = result := by
      intro result' hs
      obtain ⟨tmpDir', hok, -⟩ := hs.executed
      exact (Prod.mk.inj (Except.ok.inj (hok.symm.trans hexec))).2
    have hexecuted : ∀ {result'}, Survives setup h w input result' →
        ∀ t ∈ result.testCases, ¬ Panics (evaluation setup w input tmpDir t) := by
      intro result' hs
      obtain ⟨tmpDir', hok, hpanics⟩ := hs.executed
      obtain ⟨rfl, rfl⟩ := Prod.mk.inj (Except.ok.inj (hok.symm.trans hexec))
      exact hpanics
    unfold testInput
    simp only [hexec]
    obtain ⟨⟨e, he, hpanic⟩, hnone⟩ | ⟨hpanics, ⟨hkilled, hnot, s', err, herr, hhangs, hfiles⟩ |
        ⟨harchived, s', hok, hfiles, hhangs⟩⟩ :=
      @processInput_cases h.state (toPathBuf input)
        ⟨result.testCases.map (evaluation setup w input tmpDir), result.killed⟩ rfl
        (List.forall_mem_map.mpr fun t _ ↦ rfl) (w.fsCopy input)
    · obtain ⟨t, ht, rfl⟩ := List.mem_map.mp he
      exact .inr ⟨fun result' hs ↦ hexecuted hs t ht hpanic, .inl (by rw [hnone]; rfl)⟩
    · refine .inr ⟨fun result' hs ↦ ?_,
        .inr ⟨{ h with state := s' }, err, by rw [herr]; rfl, rfl, hfiles, rfl, hhangs⟩⟩
      obtain rfl := hunique hs
      exact hnot (hs.archived hkilled)
    · cases hstats : h.stats.addExecution result with
      | none =>
        refine .inr ⟨fun result' hs ↦ ?_, .inl (by rw [hok]; rfl)⟩
        obtain rfl := hunique hs
        have hcounted := hs.counted
        rw [hstats] at hcounted
        cases hcounted
      | some stats =>
        have hsurvives : Survives setup h w input result :=
          ⟨⟨⟨tmpDir, hexec, fun t ht ↦ hpanics _ (List.mem_map_of_mem ht)⟩, harchived⟩, by
            rw [hstats]; rfl⟩
        exact .inl ⟨result, { h with state := s', seen := input :: h.seen, stats }, hsurvives,
          by rw [hok]; rfl, rfl, hfiles, hstats, rfl, hhangs⟩

/-! ## A turn -/

/-- What the helper chooses in a turn. -/
def choice (setup : Setup) (h : Helper) (w : Turn) : Except Error (Option EntryPath) :=
  bestNewTestcase w.fs setup.aflConfig.queue w.readDir h.seen

/-- What is chosen has not been processed. -/
theorem not_mem_seen_of_choice {setup : Setup} {h : Helper} {w : Turn} {input : EntryPath}
    (hchoice : choice setup h w = .ok (some input)) : input ∉ h.seen := by
  unfold choice bestNewTestcase at hchoice
  cases hdir : w.readDir with
  | error e =>
    rw [hdir] at hchoice
    cases hchoice
  | ok entries =>
    rw [hdir] at hchoice
    dsimp only at hchoice
    cases hnames : entries.mapM id with
    | error e =>
      rw [hnames] at hchoice
      cases hchoice
    | ok names =>
      rw [hnames] at hchoice
      have hmax := Except.ok.inj hchoice
      generalize hlist : ((names.map fun name ↦ (⟨setup.aflConfig.queue, name⟩ : EntryPath)).filter
        fun path ↦ w.fs.isFile path && !h.seen.contains path) = paths at hmax
      have hmem : input ∈ paths := by
        cases paths with
        | nil => cases hmax
        | cons path paths =>
          rw [← Option.some.inj hmax]
          exact (Selection.foldl_better path paths).1
      rw [← hlist, List.mem_filter, Bool.and_eq_true] at hmem
      simpa using hmem.2.2

/-- What a turn can do. -/
inductive Outcome (setup : Setup) (h : Helper) (w : Turn) :
    Option (Helper × Except Error (Option Tested)) → Prop
  | waits (hchoice : choice setup h w = .ok none) (h' : Helper) (hsame : SameAccount h h') :
      Outcome setup h w (some (h', .ok none))
  | tests (input : EntryPath) (hchoice : choice setup h w = .ok (some input))
      (result : Statistics.SymCCResult) (hsurvives : Survives setup h w input result)
      (h₁ h' : Helper) (hafter : After h input result h₁) (hsame : SameAccount h₁ h') :
      Outcome setup h w (some (h', .ok (some (input, result))))
  | unreadable (e : Error) (hchoice : choice setup h w = .error e) (e' : Error) :
      Outcome setup h w (some (h, .error e'))
  | fails (input : EntryPath) (hchoice : choice setup h w = .ok (some input))
      (hnot : ∀ result, ¬ Survives setup h w input result) (h' : Helper) (e : Error)
      (hsame : SameAccount h h') : Outcome setup h w (some (h', .error e))
  | panics (input : EntryPath) (hchoice : choice setup h w = .ok (some input))
      (hnot : ∀ result, ¬ Survives setup h w input result) : Outcome setup h w none
  | reportPanics (h₁ : Helper) (hreport : report h₁ w = none)
      (hstats : h₁.stats = h.stats ∨ ∃ input result, choice setup h w = .ok (some input) ∧
        Survives setup h w input result ∧ After h input result h₁) :
      Outcome setup h w none

/-- A report adds lines to the file and changes nothing else. -/
theorem report_cases (h : Helper) (w : Turn) :
    report h w = none ∨ ∃ h', report h w = some h' ∧ SameAccount h h' := by
  unfold report
  split
  · cases h.stats.log with
    | none => exact .inl rfl
    | some lines => exact .inr ⟨_, rfl, rfl, rfl, rfl, rfl⟩
  · exact .inr ⟨h, rfl, .refl h⟩

theorem outcome (setup : Setup) (h : Helper) (w : Turn) :
    Outcome setup h w (turn setup h w) := by
  unfold turn
  rw [← choice]
  cases hchoice : choice setup h w with
  | error e => exact .unreadable e hchoice _
  | ok chosen =>
    cases chosen with
    | none =>
      dsimp only
      obtain hreport | ⟨h', hreport, hsame⟩ := report_cases h w
      · rw [hreport]
        exact .reportPanics h hreport (.inl rfl)
      · rw [hreport]
        exact .waits hchoice h' hsame
    | some input =>
      dsimp only
      obtain ⟨result, h₁, hsurvives, htest, hafter⟩ | ⟨hnot, htest | ⟨h', e, htest, hsame⟩⟩ :=
        testInput_cases setup h w input
      · rw [htest]
        dsimp only [Option.bind_some]
        obtain hreport | ⟨h', hreport, hsame⟩ := report_cases h₁ w
        · rw [hreport]
          exact .reportPanics h₁ hreport (.inr ⟨input, result, hchoice, hsurvives, hafter⟩)
        · rw [hreport]
          exact .tests input hchoice result hsurvives h₁ h' hafter hsame
      · rw [htest]
        exact .panics input hchoice hnot
      · rw [htest]
        exact .fails input hchoice hnot h' e hsame

/-! ## The account of a session -/

/-- The inputs that were killed. -/
def killedInputs (rs : List Tested) : List EntryPath :=
  (rs.filter fun r ↦ r.2.killed).map Prod.fst

/-- The state of the helper and the executions that it has counted. -/
structure Accounts (rs : List Tested) (h : Helper) : Prop where
  /-- Every input is tested once. -/
  nodup : (rs.map Prod.fst).Nodup
  seen : h.seen = (rs.map Prod.fst).reverse
  processedFiles : h.state.processedFiles = h.seen.map toPathBuf
  stats : (rs.map Prod.snd).foldlM Stats.addExecution Stats.default = some h.stats
  /-- The killed inputs are archived under consecutive numbers and the ids of their names. -/
  hangs : ∀ p ∈ killedInputs rs, (origId (toPathBuf p)).isSome
  hangsFiles : h.state.hangs.files = (killedInputs rs).mapIdx fun i p ↦
    (archiveName (i % 2 ^ 64) ((origId (toPathBuf p)).getD []), toPathBuf p)
  hangsId : h.state.hangs.currentId = UInt64.ofNat (killedInputs rs).length
  /-- No solver time exceeds the time of its execution. -/
  solverTime : ∀ r ∈ rs, ∀ t, r.2.solverTime = some t → t.nanos ≤ r.2.time.nanos

theorem Accounts.initializeIn (symccDir : PathBuf) : Accounts [] (.initializeIn symccDir) where
  nodup := List.nodup_nil
  seen := rfl
  processedFiles := rfl
  stats := rfl
  hangs _ hp := absurd hp List.not_mem_nil
  hangsFiles := rfl
  hangsId := rfl
  solverTime _ hr := absurd hr List.not_mem_nil

theorem Accounts.of_same {rs : List Tested} {h h' : Helper} (ha : Accounts rs h)
    (hsame : SameAccount h h') : Accounts rs h' where
  nodup := ha.nodup
  seen := hsame.seen.trans ha.seen
  processedFiles := by rw [hsame.processedFiles, hsame.seen, ha.processedFiles]
  stats := by rw [hsame.stats, ha.stats]
  hangs := ha.hangs
  hangsFiles := by rw [hsame.hangs, ha.hangsFiles]
  hangsId := by rw [hsame.hangs, ha.hangsId]
  solverTime := ha.solverTime

theorem killedInputs_concat (rs : List Tested) (r : Tested) :
    killedInputs (rs ++ [r])
      = if r.2.killed then killedInputs rs ++ [r.1] else killedInputs rs := by
  rw [killedInputs, List.filter_append, List.filter_singleton, killedInputs]
  cases r.2.killed
  · rw [cond_false, List.append_nil]
    rfl
  · rw [cond_true, List.map_append]
    rfl

/-- The helper has run SymCC on what it has tested. -/
theorem Executable.nanos_solverTime_le {setup : Setup} {h : Helper} {w : Turn} {input : EntryPath}
    {result : Statistics.SymCCResult} (hexec : Executable setup h w input result) {t : Duration}
    (ht : result.solverTime = some t) : t.nanos ≤ result.time.nanos := by
  obtain ⟨tmpDir, hok, -⟩ := hexec.executed
  obtain ⟨dir, -, hok⟩ := exists_of_bind_eq_ok hok
  obtain ⟨result', hrun, hok⟩ := exists_of_bind_eq_ok hok
  obtain ⟨-, rfl⟩ := Prod.mk.inj (Except.ok.inj hok)
  rw [withContext] at hrun
  cases hresult : setup.symcc.run setup.digit (toOsString input) (join dir (osString "output"))
      w.symcc with
  | error e =>
    rw [hresult] at hrun
    cases hrun
  | ok result'' =>
    rw [hresult] at hrun
    obtain rfl := Except.ok.inj hrun
    exact SymCC.nanos_solverTime_le hresult ht

/-- One more input. -/
theorem Accounts.after {rs : List Tested} {h h' : Helper} (ha : Accounts rs h) {input : EntryPath}
    {result : Statistics.SymCCResult} (hafter : After h input result h') (hnew : input ∉ h.seen)
    (htime : ∀ t, result.solverTime = some t → t.nanos ≤ result.time.nanos) :
    Accounts (rs ++ [(input, result)]) h' := by
  have hseen : h'.seen = ((rs ++ [(input, result)]).map Prod.fst).reverse := by
    rw [hafter.seen, ha.seen, List.map_append, List.reverse_append]
    rfl
  have hnumber : h.state.hangs.currentId.toNat = (killedInputs rs).length % 2 ^ 64 := by
    rw [ha.hangsId, UInt64.toNat_ofNat']
  have harchived := hafter.hangs
  refine {
    nodup := ?_
    seen := hseen
    processedFiles := by rw [hafter.processedFiles, ha.processedFiles, hafter.seen, List.map_cons]
    stats := ?_
    hangs := ?_
    hangsFiles := ?_
    hangsId := ?_
    solverTime := ?_ }
  · rw [List.map_append, List.nodup_append']
    refine ⟨ha.nodup, List.nodup_singleton _, ?_⟩
    rw [ha.seen, List.mem_reverse] at hnew
    exact List.disjoint_singleton.mpr hnew
  · have hlast : [result].foldlM Stats.addExecution h.stats = some h'.stats := by
      rw [List.foldlM_cons, hafter.stats]
      rfl
    rw [List.map_append, List.foldlM_append, ha.stats]
    exact hlast
  all_goals rw [Archived] at harchived
  · intro p hp
    rw [killedInputs_concat] at hp
    dsimp only at hp
    split at hp
    · next hkilled =>
      rw [if_pos hkilled] at harchived
      obtain ⟨id, hid, -⟩ := harchived
      obtain hp | hp := List.mem_append.mp hp
      · exact ha.hangs p hp
      · rw [List.mem_singleton.mp hp, hid]
        rfl
    · exact ha.hangs p hp
  · rw [killedInputs_concat]
    dsimp only
    split
    · next hkilled =>
      rw [if_pos hkilled] at harchived
      obtain ⟨id, hid, hdir⟩ := harchived
      rw [hdir, TestcaseDir.add, List.mapIdx_concat, ha.hangsFiles, newName_eq, hnumber, hid]
      rfl
    · next hkilled =>
      rw [if_neg hkilled] at harchived
      rw [harchived, ha.hangsFiles]
  · rw [killedInputs_concat]
    dsimp only
    split
    · next hkilled =>
      rw [if_pos hkilled] at harchived
      obtain ⟨id, -, hdir⟩ := harchived
      rw [hdir, TestcaseDir.add, ha.hangsId, List.length_append, List.length_singleton,
        UInt64.ofNat_add]
      rfl
    · next hkilled =>
      rw [if_neg hkilled] at harchived
      rw [harchived, ha.hangsId]
  · rw [List.forall_mem_append, List.forall_mem_singleton]
    exact ⟨ha.solverTime, htime⟩

/-! ## Sessions -/

theorem status_concat (setup : Setup) (symccDir : PathBuf) (ws : List Turn) (w : Turn) :
    status setup symccDir (ws ++ [w]) = (step setup (status setup symccDir ws) w).1 := by
  rw [status, Machine.run_concat, status]

theorem tested_concat (setup : Setup) (symccDir : PathBuf) (ws : List Turn) (w : Turn) :
    tested setup symccDir (ws ++ [w]) = tested setup symccDir ws ++
      (step setup (status setup symccDir ws) w).2.toList := by
  rw [tested, Machine.run_concat, List.filterMap_append, tested, status]
  congr 1

/-- The state of a helper that has not panicked. -/
def Status.helper : Status → Option Helper
  | .running h | .returned h _ => some h
  | .panicked => none

/-- A helper that has ended stays as it is. -/
theorem step_of_ended (setup : Setup) {st : Status} (h : ∀ helper, st ≠ .running helper)
    (w : Turn) : step setup st w = (st, none) := by
  cases st with
  | running helper => exact absurd rfl (h helper)
  | returned _ _ | panicked => rfl

/-- The account is right after every session, also if it has ended with an error. -/
theorem accounts_status (setup : Setup) (symccDir : PathBuf) (ws : List Turn) (h : Helper)
    (hstatus : (status setup symccDir ws).helper = some h) :
    Accounts (tested setup symccDir ws) h := by
  induction ws using List.reverseRecOn generalizing h with
  | nil =>
    obtain rfl := Option.some.inj hstatus
    exact .initializeIn symccDir
  | append_singleton ws w ih =>
    rw [status_concat] at hstatus
    rw [tested_concat]
    cases hbefore : status setup symccDir ws with
    | returned h' e =>
      rw [hbefore] at hstatus ih
      rw [step_of_ended setup (by simp), Option.toList_none, List.append_nil]
      exact ih h hstatus
    | panicked =>
      rw [hbefore] at hstatus
      cases hstatus
    | running h' =>
      rw [hbefore] at hstatus ih
      have ha := ih h' rfl
      have houtcome := outcome setup h' w
      unfold step at hstatus ⊢
      dsimp only at hstatus ⊢
      generalize turn setup h' w = result at houtcome hstatus
      cases houtcome with
      | waits _ h'' hsame =>
        obtain rfl := Option.some.inj hstatus
        rw [Option.toList_none, List.append_nil]
        exact ha.of_same hsame
      | tests input hchoice result hsurvives h₁ h'' hafter hsame =>
        obtain rfl := Option.some.inj hstatus
        exact (ha.after hafter (not_mem_seen_of_choice hchoice)
          fun t ↦ hsurvives.nanos_solverTime_le).of_same hsame
      | unreadable _ _ _ =>
        obtain rfl := Option.some.inj hstatus
        rw [Option.toList_none, List.append_nil]
        exact ha
      | fails _ _ _ h'' _ hsame =>
        obtain rfl := Option.some.inj hstatus
        rw [Option.toList_none, List.append_nil]
        exact ha.of_same hsame
      | panics _ _ _ | reportPanics _ _ _ => cases hstatus

/-! ## The statistics of a session -/

private theorem nanos_lt_of_add {a b c : Duration} (h : a.add b = some c) :
    a.nanos + b.nanos < 2 ^ 64 * 10 ^ 9 := by
  unfold Duration.add at h
  split at h
  · assumption
  · cases h

/-- There is room for the time of one more execution. -/
def Fits (s : Stats) (result : Statistics.SymCCResult) : Prop :=
  (if result.killed then s.failedTime.nanos else s.totalTime.nanos) + result.time.nanos
    < 2 ^ 64 * 10 ^ 9

/-- An execution is counted exactly if its time fits. -/
theorem isSome_addExecution_iff {rs : List Statistics.SymCCResult} {s : Stats}
    (hs : Stats.Consistent rs s) {result : Statistics.SymCCResult}
    (htime : ∀ t, result.solverTime = some t → t.nanos ≤ result.time.nanos) :
    (s.addExecution result).isSome ↔ Fits s result := by
  unfold Stats.addExecution Fits
  split
  · constructor
    · intro h
      obtain ⟨s', hs'⟩ := Option.isSome_iff_exists.mp h
      obtain ⟨t, ht, -⟩ := Option.bind_eq_some_iff.mp hs'
      exact nanos_lt_of_add ht
    · intro h
      rw [Duration.add_of_lt h]
      rfl
  · constructor
    · intro h
      obtain ⟨s', hs'⟩ := Option.isSome_iff_exists.mp h
      obtain ⟨t, ht, -⟩ := Option.bind_eq_some_iff.mp hs'
      exact nanos_lt_of_add ht
    · intro h
      obtain ⟨solverTime, hsolver, -⟩ :=
        Stats.addSolverTime_spec (fun st hst ↦ (hs.solverTime st hst).1) htime h
      rw [Duration.add_of_lt h, hsolver]
      rfl

/-- Statistics that have been added up are consistent. -/
theorem consistent_of_foldlM {rs : List Statistics.SymCCResult} {s : Stats}
    (h : rs.foldlM Stats.addExecution Stats.default = some s)
    (htime : ∀ r ∈ rs, ∀ t, r.solverTime = some t → t.nanos ≤ r.time.nanos)
    (hlength : rs.length < 2 ^ 32) : Stats.Consistent rs s := by
  induction rs using List.reverseRecOn generalizing s with
  | nil =>
    obtain rfl := Option.some.inj h
    exact .default
  | append_singleton rs r ih =>
    rw [List.forall_mem_append, List.forall_mem_singleton] at htime
    rw [List.foldlM_append] at h
    obtain ⟨s', hs', h⟩ := Option.bind_eq_some_iff.mp h
    have hadd : s'.addExecution r = some s := by
      rw [List.foldlM_cons] at h
      obtain ⟨s'', hs'', h⟩ := Option.bind_eq_some_iff.mp h
      rwa [← Option.some.inj h]
    have hlength' : rs.length < 2 ^ 32 := by
      rw [List.length_append] at hlength
      exact (Nat.le_add_right _ _).trans_lt hlength
    have hconsistent := ih hs' htime.1 hlength'
    have hfits : Fits s' r :=
      (isSome_addExecution_iff hconsistent htime.2).mp (by rw [hadd]; rfl)
    unfold Fits at hfits
    have hsuccessful : Stats.nanosOf (Stats.successful (rs ++ [r])) < 2 ^ 64 * 10 ^ 9 := by
      rw [Stats.successful_concat]
      split
      · exact hconsistent.totalTime ▸ s'.totalTime.lt
      · next hkilled =>
        rw [if_neg hkilled] at hfits
        rwa [Stats.nanosOf_concat, ← hconsistent.totalTime]
    have hfailed : Stats.nanosOf (Stats.failed (rs ++ [r])) < 2 ^ 64 * 10 ^ 9 := by
      rw [Stats.failed_concat]
      split
      · next hkilled =>
        rw [if_pos hkilled] at hfits
        rwa [Stats.nanosOf_concat, ← hconsistent.failedTime]
      · exact hconsistent.failedTime ▸ s'.failedTime.lt
    obtain ⟨s'', hs'', hlast⟩ := hconsistent.addExecution htime.2 hlength hsuccessful hfailed
    rwa [Option.some.inj (hs''.symm.trans hadd)] at hlast

theorem length_tested_le (setup : Setup) (symccDir : PathBuf) (ws : List Turn) :
    (tested setup symccDir ws).length ≤ ws.length := by
  have hlength := Machine.length_run_answers (step setup) (.running (.initializeIn symccDir)) ws
  rw [← hlength, tested]
  exact List.length_filterMap_le _ _

theorem Accounts.consistent {rs : List Tested} {h : Helper} (ha : Accounts rs h)
    (hlength : rs.length < 2 ^ 32) : Stats.Consistent (rs.map Prod.snd) h.stats := by
  refine consistent_of_foldlM ha.stats ?_ (by rwa [List.length_map])
  exact List.forall_mem_map.mpr ha.solverTime

/-- A report does not panic. -/
theorem isSome_report {rs : List Statistics.SymCCResult} {h : Helper}
    (hs : Stats.Consistent rs h.stats) (w : Turn) : (report h w).isSome := by
  unfold report
  split
  · obtain ⟨lines, hlines, -⟩ := hs.exists_log
    rw [hlines]
    rfl
  · rfl

/-- A helper that runs a program called `a` on the queue `q`. -/
def plainSetup : Setup where
  digit := Char.isDigit
  symcc := SymCC.new ⟨[0x73]⟩ ["a"]
  aflConfig := ⟨[], [], true, false, ⟨[0x71]⟩⟩
  dontUseShowmap := true

/-- A queue with a seed and an input with new coverage. -/
def twoInputs : List OsString :=
  ["id:000000,orig:a", "id:000001,+cov"].map fun name ↦ ⟨ByteText.ascii name.toList⟩

/-- A turn in which SymCC ends with a certain code and generates nothing. -/
def plainTurn (names : List OsString) (code : ℤ) (copied : Except Error Unit) : Turn where
  fs := ⟨fun _ ↦ true, fun _ ↦ .ok 3⟩
  readDir := .ok (names.map .ok)
  tmpDir := .ok ⟨[0x74]⟩
  symcc := oneExecution code
  showmap _ _ := ⟨.ok (some 1), fun _ ↦ none⟩
  fsCopy _ _ := copied
  elapsed := secondAndAHalf
  written := 0

/-- The archive of hangs has a copy of every killed input, under consecutive numbers and with the id
of the input. -/
def ArchivesHangs (dir : TestcaseDir) (inputs : List EntryPath) : Prop :=
  (∀ p ∈ inputs, (origId (toPathBuf p)).isSome) ∧
    dir.files = inputs.mapIdx fun i p ↦
      (archiveName i ((origId (toPathBuf p)).getD []), toPathBuf p)

private theorem length_killedInputs (rs : List Tested) :
    (killedInputs rs).length = (Stats.failed (rs.map Prod.snd)).length := by
  rw [killedInputs, Stats.failed, List.length_map, List.filter_map, List.length_map]
  rfl

/-- In every session of fewer than `2 ^ 32` turns, while it lasts and after an error has ended it,
each input has been tested once, every test is counted as a success or a failure, the times are
those of the executions, and there are as many archived hangs as failures, which are the inputs that
were killed. -/
theorem session_accounted (setup : Setup) (symccDir : PathBuf) {ws : List Turn}
    (hlength : ws.length < 2 ^ 32) {h : Helper}
    (hstatus : (status setup symccDir ws).helper = some h) :
    h.seen.Nodup ∧ h.seen = ((tested setup symccDir ws).map Prod.fst).reverse ∧
      h.stats.totalCount.toNat + h.stats.failedCount.toNat = h.seen.length ∧
      h.state.hangs.files.length = h.stats.failedCount.toNat ∧
      ArchivesHangs h.state.hangs (killedInputs (tested setup symccDir ws)) ∧
      Stats.Consistent ((tested setup symccDir ws).map Prod.snd) h.stats := by
  have ha := accounts_status setup symccDir ws h hstatus
  have hle := length_tested_le setup symccDir ws
  have hs := ha.consistent (by omega)
  have hkilled : (killedInputs (tested setup symccDir ws)).length < 2 ^ 64 := by
    have hfilter : (killedInputs (tested setup symccDir ws)).length
        ≤ (tested setup symccDir ws).length := by
      rw [killedInputs, List.length_map]
      exact List.length_filter_le _ _
    omega
  refine ⟨?_, ha.seen, ?_, ?_, ⟨ha.hangs, ?_⟩, hs⟩
  · rw [ha.seen, List.nodup_reverse]
    exact ha.nodup
  · rw [hs.totalCount, hs.failedCount, Stats.length_successful_add_length_failed, List.length_map,
      ha.seen, List.length_reverse, List.length_map]
  · rw [ha.hangsFiles, List.length_mapIdx, length_killedInputs, hs.failedCount]
  · rw [ha.hangsFiles]
    refine List.ext_getElem (by simp) fun i hi _ ↦ ?_
    rw [List.length_mapIdx] at hi
    rw [List.getElem_mapIdx, List.getElem_mapIdx, Nat.mod_eq_of_lt (hi.trans hkilled)]

/-- Of two inputs, the second one is killed, and in the third turn nothing is left. -/
def secondKilled : List Turn :=
  [plainTurn twoInputs 0 (.ok ()), plainTurn twoInputs.reverse 124 (.ok ()),
    plainTurn twoInputs 0 (.ok ())]

theorem session_accounted_secondKilled :
    ∃ h, (status plainSetup [] secondKilled).helper = some h ∧
      h.seen.Nodup ∧ h.seen = ((tested plainSetup [] secondKilled).map Prod.fst).reverse ∧
      h.stats.totalCount.toNat + h.stats.failedCount.toNat = h.seen.length ∧
      h.state.hangs.files.length = h.stats.failedCount.toNat := by
  obtain ⟨h, hstatus⟩ := Option.isSome_iff_exists.mp
    (by decide : (status plainSetup [] secondKilled).helper.isSome)
  obtain ⟨hnodup, hseen, hcount, hhangs, -⟩ := session_accounted plainSetup [] (by decide) hstatus
  exact ⟨h, hstatus, hnodup, hseen, hcount, hhangs⟩

/-! ## How long a session lasts -/

/-- The queue can be listed, and what is chosen from it can be tested. -/
def Continues (setup : Setup) : Status → Turn → Prop
  | .running h, w =>
    ∃ chosen, choice setup h w = .ok chosen ∧ ∀ input, chosen = some input →
      ∃ result, Executable setup h w input result ∧ Fits h.stats result
  | _, _ => False

def Status.IsRunning : Status → Prop
  | .running _ => True
  | _ => False

/-- One turn. -/
theorem isRunning_step_iff {setup : Setup} {rs : List Tested} {h : Helper} (ha : Accounts rs h)
    (hlength : rs.length + 1 < 2 ^ 32) (w : Turn) :
    (step setup (.running h) w).1.IsRunning ↔ Continues setup (.running h) w := by
  have hs : Stats.Consistent (rs.map Prod.snd) h.stats := ha.consistent (by omega)
  have hcontinues : ∀ {input}, choice setup h w = .ok (some input) →
      ((∃ result, Survives setup h w input result) ↔ Continues setup (.running h) w) := by
    intro input hchoice
    constructor
    · rintro ⟨result, hsurvives⟩
      refine ⟨_, hchoice, fun input' hinput ↦ ⟨result, ?_⟩⟩
      obtain rfl := Option.some.inj hinput
      exact ⟨hsurvives.toExecutable, (isSome_addExecution_iff hs
        fun t ↦ hsurvives.nanos_solverTime_le).mp hsurvives.counted⟩
    · rintro ⟨chosen, hchosen, hall⟩
      obtain rfl := Except.ok.inj (hchoice.symm.trans hchosen)
      obtain ⟨result, hexec, hfits⟩ := hall input rfl
      exact ⟨result, hexec, (isSome_addExecution_iff hs
        fun t ↦ hexec.nanos_solverTime_le).mpr hfits⟩
  have houtcome := outcome setup h w
  unfold step
  dsimp only
  generalize turn setup h w = result at houtcome
  cases houtcome with
  | waits hchoice h' _ =>
    exact iff_of_true trivial ⟨_, hchoice, fun input hinput ↦ nomatch hinput⟩
  | tests input hchoice result hsurvives _ _ _ _ =>
    exact iff_of_true trivial ((hcontinues hchoice).mp ⟨result, hsurvives⟩)
  | unreadable e hchoice _ =>
    refine iff_of_false id fun ⟨chosen, hchosen, _⟩ ↦ ?_
    cases hchoice.symm.trans hchosen
  | fails input hchoice hnot _ _ _ | panics input hchoice hnot =>
    refine iff_of_false id fun hcontinue ↦ ?_
    obtain ⟨result, hsurvives⟩ := (hcontinues hchoice).mpr hcontinue
    exact hnot result hsurvives
  | reportPanics h₁ hreport hstats =>
    -- the statistics are consistent, with one more execution or without
    have hconsistent : ∃ rs', Stats.Consistent rs' h₁.stats := by
      obtain heq | ⟨input, result, hchoice, hsurvives, hafter⟩ := hstats
      · exact ⟨_, heq ▸ hs⟩
      · have ha' := ha.after hafter (not_mem_seen_of_choice hchoice)
          fun t ↦ hsurvives.nanos_solverTime_le
        exact ⟨_, ha'.consistent (by rwa [List.length_append])⟩
    obtain ⟨rs', hrs'⟩ := hconsistent
    have hsome := isSome_report hrs' w
    rw [hreport] at hsome
    cases hsome

/-- In fewer than `2 ^ 32` turns the helper is still there exactly if it has survived each of them:
the queue could be listed, and where there was an input, SymCC could be run on it, `afl-showmap` has
ended as expected on every test case, the input could be archived if it had to be, and its time fits
into the statistics. No failed evaluation of a test case and no report ends it. -/
theorem runs_iff (setup : Setup) (symccDir : PathBuf) {ws : List Turn}
    (hlength : ws.length < 2 ^ 32) :
    (status setup symccDir ws).IsRunning ↔
      Machine.Along (step setup) (Continues setup) (.running (.initializeIn symccDir)) ws := by
  induction ws using List.reverseRecOn with
  | nil => exact iff_of_true trivial trivial
  | append_singleton ws w ih =>
    rw [List.length_append, List.length_singleton] at hlength
    rw [Machine.along_concat, ← ih (by omega), status_concat, ← status]
    cases hbefore : status setup symccDir ws with
    | returned h e => exact iff_of_false id fun h ↦ h.1
    | panicked => exact iff_of_false id fun h ↦ h.1
    | running h =>
      have ha : Accounts (tested setup symccDir ws) h :=
        accounts_status setup symccDir ws h (by rw [hbefore]; rfl)
      have hle := length_tested_le setup symccDir ws
      rw [isRunning_step_iff ha (by omega)]
      exact (and_iff_right trivial).symm

/-- A killed input that cannot be archived ends the helper. -/
theorem runs_iff_killed :
    ¬ (status plainSetup []
      [plainTurn twoInputs 124 (.error ["No space left on device"])]).IsRunning := by
  rw [runs_iff plainSetup [] (by decide)]
  rintro ⟨⟨chosen, hchosen, hall⟩, -⟩
  obtain ⟨result, hexec, -⟩ := hall _ (Except.ok.inj (hchosen.symm.trans rfl))
  obtain ⟨tmpDir, hok, -⟩ := hexec.executed
  obtain ⟨-, rfl⟩ := Prod.mk.inj (Except.ok.inj (hok.symm.trans rfl))
  obtain ⟨id, -, hcopied⟩ := hexec.archived rfl
  cases hcopied

/-! ## The order of a session -/

/-- The queue has certain files, listed in any order. -/
def Lists (fs : FileSystem) (names : List OsString) (w : Turn) : Prop :=
  w.fs = fs ∧ ∃ listing : List OsString, listing.Perm names ∧ w.readDir = .ok (listing.map .ok)

/-- The helper chooses the next file in the order. -/
theorem choice_of_lists {setup : Setup} {h : Helper} {w : Turn} {fs : FileSystem}
    {names : List OsString} (hw : Lists fs names w) {order : List EntryPath}
    (hperm : order.Perm (files fs setup.aflConfig.queue names))
    (horder : order.Pairwise fun a b ↦ fs.score b < fs.score a) {n : ℕ}
    (hseen : h.seen = (order.take n).reverse) : choice setup h w = .ok order[n]? := by
  obtain ⟨rfl, listing, hlisting, hdir⟩ := hw
  rw [choice, hdir, bestNewTestcase_eq]
  congr 1
  refine Selection.round_eq_getElem? horder (fun a ↦ ?_) fun a ↦ by rw [hseen, List.mem_reverse]
  exact (((hlisting.map _).filter _).mem_iff).trans hperm.mem_iff.symm

/-- What has happened after some turns with one queue: the first files in the order have been
tested, one in each turn, until there were no more or until there was one that could not be
tested. -/
structure InOrder (setup : Setup) (symccDir : PathBuf) (order : List EntryPath) (ws : List Turn)
    (k : ℕ) : Prop where
  tested : (tested setup symccDir ws).map Prod.fst = order.take k
  running : (status setup symccDir ws).IsRunning → k = ws.length
  ended : ¬ (status setup symccDir ws).IsRunning → ∃ h w input, ws[k]? = some w ∧
    order[k]? = some input ∧ status setup symccDir (ws.take k) = .running h ∧
      ∀ result, Executable setup h w input result → ¬ Fits h.stats result

/-- Nothing has been tested in a turn that ends the helper. -/
theorem answer_of_not_isRunning {setup : Setup} {st : Status} {w : Turn}
    (hnot : ¬ (step setup st w).1.IsRunning) : (step setup st w).2 = none := by
  cases st with
  | running h =>
    unfold step at hnot ⊢
    dsimp only at hnot ⊢
    generalize turn setup h w = result at hnot ⊢
    obtain - | ⟨h', e | answer⟩ := result
    · rfl
    · rfl
    · exact absurd trivial hnot
  | returned _ _ | panicked => rfl

/-- A turn more. -/
theorem InOrder.concat {setup : Setup} {symccDir : PathBuf} {order : List EntryPath}
    {ws : List Turn} {h : Helper} (hstatus : status setup symccDir ws = .running h)
    (hio : InOrder setup symccDir order ws ws.length) (hlength : ws.length + 1 < 2 ^ 32)
    {w : Turn} (hchoice : choice setup h w = .ok order[ws.length]?) :
    InOrder setup symccDir order (ws ++ [w]) (ws.length + 1) ∨
      InOrder setup symccDir order (ws ++ [w]) ws.length := by
  have ha : Accounts (MainLoop.tested setup symccDir ws) h :=
    accounts_status setup symccDir ws h (by rw [hstatus]; rfl)
  have hle := length_tested_le setup symccDir ws
  have hrunning : (step setup (.running h) w).1.IsRunning ↔ Continues setup (.running h) w :=
    isRunning_step_iff ha (by omega) w
  have hnext : (step setup (.running h) w).1.IsRunning →
      (step setup (.running h) w).2.toList.map Prod.fst = order[ws.length]?.toList := by
    have houtcome := outcome setup h w
    unfold step
    dsimp only
    generalize turn setup h w = result at houtcome
    cases houtcome with
    | waits hnone _ _ =>
      intro _
      rw [← Except.ok.inj (hnone.symm.trans hchoice)]
      rfl
    | tests input hsome _ _ _ _ _ _ =>
      intro _
      rw [← Except.ok.inj (hsome.symm.trans hchoice)]
      rfl
    | unreadable _ _ _ | fails _ _ _ _ _ _ | panics _ _ _ | reportPanics _ _ _ =>
      exact fun hfalse ↦ hfalse.elim
  have hconcat := tested_concat setup symccDir ws w
  have hlast := status_concat setup symccDir ws w
  rw [hstatus] at hconcat hlast
  by_cases hstep : (step setup (.running h) w).1.IsRunning
  · refine .inl ⟨?_, fun _ ↦ by rw [List.length_append]; rfl, fun hnot ↦ ?_⟩
    · rw [hconcat, List.map_append, hio.tested, hnext hstep, List.take_add_one]
    · rw [hlast] at hnot
      exact absurd hstep hnot
  · refine .inr ⟨?_, fun hrun ↦ ?_, fun _ ↦ ?_⟩
    · rw [hconcat, List.map_append, hio.tested, answer_of_not_isRunning hstep]
      exact List.append_nil _
    · rw [hlast] at hrun
      exact absurd hrun hstep
    · rw [hrunning] at hstep
      cases hinput : order[ws.length]? with
      | none =>
        rw [hinput] at hchoice
        exact absurd ⟨none, hchoice, fun input hsome ↦ nomatch hsome⟩ hstep
      | some input =>
        rw [hinput] at hchoice
        refine ⟨h, w, input, by simp, rfl, by rw [List.take_left', hstatus]; rfl, ?_⟩
        intro result hexec hfits
        refine hstep ⟨_, hchoice, fun input' hinput' ↦ ?_⟩
        obtain rfl := Option.some.inj hinput'
        exact ⟨result, hexec, hfits⟩

/-- While the queue has the same files, they are tested in their order, however they are listed: in
each turn one, until all have been tested and the helper waits, or until the helper ends with the
first file that it cannot test. -/
theorem tests_in_order (setup : Setup) (symccDir : PathBuf) (fs : FileSystem)
    {names : List OsString} (hnames : names.Nodup)
    (hmetadata : ∀ path ∈ files fs setup.aflConfig.queue names,
      ∃ size, fs.metadata path = .ok size) :
    ∃ order : List EntryPath, order.Perm (files fs setup.aflConfig.queue names) ∧
      order.Pairwise (Precedes fs) ∧
        ∀ ws : List Turn, ws.length < 2 ^ 32 → (∀ w ∈ ws, Lists fs names w) →
          ∃ k, InOrder setup symccDir order ws k := by
  have hdir : ∀ path ∈ files fs setup.aflConfig.queue names, path.dir = setup.aflConfig.queue := by
    intro path hpath
    obtain ⟨name, -, rfl⟩ := List.mem_map.mp (List.mem_filter.mp hpath).1
    rfl
  have hnodup : (files fs setup.aflConfig.queue names).Nodup := by
    refine (List.Nodup.map ?_ hnames).filter _
    exact fun a b hab ↦ (EntryPath.mk.inj hab).2
  have hperm : (Selection.ordered fs.score (files fs setup.aflConfig.queue names)).Perm
      (files fs setup.aflConfig.queue names) := List.mergeSort_perm _ _
  have horder := Selection.pairwise_ordered hnodup fun a ha b hb ↦
    eq_of_score_eq (hmetadata a ha) (hmetadata b hb) ((hdir a ha).trans (hdir b hb).symm)
  refine ⟨_, hperm, horder.imp_of_mem fun ha hb ↦ ?_, fun ws hlength hws ↦ ?_⟩
  · exact (score_lt_iff (hmetadata _ (hperm.mem_iff.mp ha)) (hmetadata _ (hperm.mem_iff.mp hb))).mp
  · induction ws using List.reverseRecOn with
    | nil => exact ⟨0, rfl, fun _ ↦ rfl, fun hnot ↦ absurd trivial hnot⟩
    | append_singleton ws w ih =>
      rw [List.length_append, List.length_singleton] at hlength
      rw [List.forall_mem_append, List.forall_mem_singleton] at hws
      obtain ⟨k, hio⟩ := ih (by omega) hws.1
      cases hstatus : status setup symccDir ws with
      | running h =>
        have hk : k = ws.length := hio.running (by rw [hstatus]; trivial)
        subst hk
        have ha : Accounts (tested setup symccDir ws) h :=
          accounts_status setup symccDir ws h (by rw [hstatus]; rfl)
        have hchoice := choice_of_lists hws.2 hperm horder (ha.seen.trans (by rw [hio.tested]))
        obtain hnext | hnext := hio.concat hstatus hlength hchoice
        · exact ⟨_, hnext⟩
        · exact ⟨_, hnext⟩
      | returned _ _ | panicked =>
        have hsame : status setup symccDir (ws ++ [w]) = status setup symccDir ws := by
          rw [status_concat, hstatus]
          rfl
        have htested : tested setup symccDir (ws ++ [w]) = tested setup symccDir ws := by
          rw [tested_concat, hstatus]
          exact List.append_nil _
        have hnot : ¬ (status setup symccDir ws).IsRunning := by
          rw [hstatus]
          exact id
        obtain ⟨h, w', input, hw', hinput, hrunning, hfails⟩ := hio.ended hnot
        have hk : k < ws.length := (List.getElem?_eq_some_iff.mp hw').1
        refine ⟨k, htested ▸ hio.tested, fun hrun ↦ absurd (hsame ▸ hrun) hnot, fun _ ↦ ?_⟩
        refine ⟨h, w', input, ?_, hinput, ?_, hfails⟩
        · rw [List.getElem?_append_left hk, hw']
        · rw [List.take_append_of_le_length hk.le, hrunning]

/-- Two test cases and a directory. -/
theorem tests_in_order_twoInputs :
    let fs : FileSystem :=
      ⟨fun path ↦ path.name.bytes ≠ ByteText.ascii ".state".toList, fun _ ↦ .ok 3⟩
    let names := ⟨ByteText.ascii ".state".toList⟩ :: twoInputs
    ∃ order : List EntryPath, order.Perm (files fs ⟨[0x71]⟩ names) ∧ order.Pairwise (Precedes fs) ∧
      ∀ ws : List Turn, ws.length < 2 ^ 32 → (∀ w ∈ ws, Lists fs names w) →
        ∃ k, InOrder plainSetup [] order ws k :=
  tests_in_order plainSetup [] _ (by decide) fun _ _ ↦ ⟨3, rfl⟩

end MainLoop

end FuzzingHelper

end Adacc
