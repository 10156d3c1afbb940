import Adacc.FuzzingHelper.ProcessTestcase
import Adacc.FuzzingHelper.Scheduling
import Adacc.Foundation.Binary64

/-!
# Run-time statistics

`symcc.rs`, `main.rs`: `SymCC::run` measures the time of an execution and reads the time spent in
the solver from the logs of the Qsym backend. `Stats::add_execution` adds these up, `Stats::log`
reports sums, averages and the share of the solver.

The report divides by counts and by times. Two of the divisions are guarded by something else than
the divisor: the share divides milliseconds where seconds have been tested, and the average of the
solver time divides by the number of successful executions where only the times have been tested.
`Consistent` says how the fields go together. The sum of solver times is bounded by the total time,
because `run` bounds every solver time by the time of its execution, and there is none before an
execution has succeeded.

A panic is `none`: sums of durations that overflow and divisions of a duration by zero. Counts are
`u32` and wrap around.
-/

namespace Adacc

namespace FuzzingHelper

namespace Statistics

open Scheduling

/-! ## Durations -/

/-- `Duration`: up to `2 ^ 64` seconds, in nanoseconds. -/
structure Duration where
  nanos : ℕ
  lt : nanos < 2 ^ 64 * 10 ^ 9
  deriving DecidableEq

namespace Duration

def zero : Duration := ⟨0, by norm_num⟩

def asSecs (d : Duration) : ℕ := d.nanos / 10 ^ 9

def asMillis (d : Duration) : ℕ := d.nanos / 10 ^ 6

def fromMicros (micros : UInt64) : Duration :=
  ⟨micros.toNat * 1000, by have := micros.toNat_lt; omega⟩

/-- `+`, which panics if the sum is too large. -/
def add (a b : Duration) : Option Duration :=
  if h : a.nanos + b.nanos < 2 ^ 64 * 10 ^ 9 then some ⟨a.nanos + b.nanos, h⟩ else none

/-- `/`, which panics if the divisor is zero. -/
def div (d : Duration) (n : UInt32) : Option Duration :=
  if n = 0 then none
  else some ⟨d.nanos / n.toNat, (Nat.div_le_self _ _).trans_lt d.lt⟩

/-- `cmp::min` -/
def min (a b : Duration) : Duration := if a.nanos ≤ b.nanos then a else b

theorem add_of_lt {a b : Duration} (h : a.nanos + b.nanos < 2 ^ 64 * 10 ^ 9) :
    a.add b = some ⟨a.nanos + b.nanos, h⟩ := dif_pos h

private theorem div_of_ne {n : UInt32} (hn : n ≠ 0) (d : Duration) :
    d.div n = some ⟨d.nanos / n.toNat, (Nat.div_le_self _ _).trans_lt d.lt⟩ := if_neg hn

private theorem nanos_min_le_right (a b : Duration) : (a.min b).nanos ≤ b.nanos := by
  unfold min
  split
  · assumption
  · exact le_rfl

end Duration

/-! ## The solver time in the logs -/

/-- `char::is_whitespace` -/
def isWhitespace (c : Char) : Bool :=
  let n := c.toNat
  (0x9 ≤ n && n ≤ 0xD) || n == 0x20 || n == 0x85 || n == 0xA0 || n == 0x1680 ||
    (0x2000 ≤ n && n ≤ 0x200A) || n == 0x2028 || n == 0x2029 || n == 0x202F || n == 0x205F ||
    n == 0x3000

/-- What `(\d+)` captures in the leftmost match of `"solving_time": (\d+)`, where `digit` says what
`\d` matches. -/
def captureSolvingTime (digit : Char → Bool) : List Char → Option (List Char)
  | [] => none
  | c :: text =>
    if "\"solving_time\": ".toList <+: c :: text then
      let digits := ((c :: text).drop 16).takeWhile digit
      if digits = [] then captureSolvingTime digit text else some digits
    else captureSolvingTime digit text

/-- `str::parse::<u64>` -/
def parseU64 (text : List Char) : Option UInt64 :=
  let digits := if text.head? = some '+' then text.tail else text
  if digits ≠ [] ∧ digits.all Char.isDigit ∧ Nat.ofDigitChars 10 digits 0 < 2 ^ 64 then
    some (UInt64.ofNat (Nat.ofDigitChars 10 digits 0))
  else none

/-- `SymCC::parse_solver_time` -/
def parseSolverTime (digit : Char → Bool) (output : List UInt8) : Option Duration :=
  ((((((output.splitOn 0x0A).reverse.filterMap ByteText.decodeStrict).filter fun s ↦
    decide ("[STAT] SMT:".toList <+: s.dropWhile isWhitespace)).filterMap
      (captureSolvingTime digit)).filterMap parseU64).map Duration.fromMicros).head?

/-- The last line counts. -/
example : parseSolverTime Char.isDigit
    (ByteText.ascii ("[STAT] SMT: \x7b \"solving_time\": 14869, \"total_time\": 185742 \x7d\n" ++
      "[STAT] SMT: \x7b \"solving_time\": 15106 \x7d").toList) = some (.fromMicros 15106) := by
  decide

/-! ## Running SymCC -/

/-- `SymCC` -/
structure SymCC where
  useStandardInput : Bool
  bitmap : OsString
  inputFile : OsString
  command : List OsString

/-- `SymCCResult` -/
structure SymCCResult where
  testCases : List EntryPath
  killed : Bool
  time : Duration
  solverTime : Option Duration

/-- What is set up in a `Command`. -/
structure Command where
  program : String
  args : List OsString
  env : List (String × OsString)
  stdinPiped : Bool

/-- `Output` -/
structure Output where
  code : Option ℤ
  signal : Option ℤ
  stderr : List UInt8

/-- What happens when a command is executed. -/
structure Execution where
  spawn : Except Error Unit
  openInput : Except Error Unit
  pipeInput : Except Error Unit
  output : Except Error Output
  elapsed : Duration
  readDir : ReadDir

/-- How the world answers to `SymCC::run`. -/
structure World where
  copyInput : Except Error Unit
  createDir : Except Error Unit
  execute : Command → Execution

/-- `with_context` -/
def withContext {α : Type} (context : String) (result : Except Error α) : Except Error α :=
  result.mapError (context :: ·)

def osString (text : String) : OsString := ⟨text.toUTF8.toList⟩

/-- `TIMEOUT` -/
def timeout : ℕ := 90

/-- The command that `SymCC::run` spawns. -/
def SymCC.analysisCommand (symcc : SymCC) (outputDir : OsString) : Command where
  program := "timeout"
  args := [osString "-k", osString "5", osString (toString timeout)] ++ symcc.command
  env := [("SYMCC_ENABLE_LINEARIZATION", osString "1"), ("SYMCC_AFL_COVERAGE_MAP", symcc.bitmap),
    ("SYMCC_OUTPUT_DIR", outputDir)] ++
      if symcc.useStandardInput then [] else [("SYMCC_INPUT_FILE", symcc.inputFile)]
  stdinPiped := symcc.useStandardInput

/-- Whether the process was killed, as the program `timeout` reports it. -/
def Output.killed (output : Output) : Bool :=
  match output.code with
  | some code => code == 124 || code == -9
  | none => output.signal.isSome

/-- The input on the standard input of the process. -/
def SymCC.pipeInput (symcc : SymCC) (execution : Execution) : Except Error Unit :=
  if symcc.useStandardInput then do
    withContext ("Failed to read the test input at " ++ symcc.inputFile.display)
      execution.openInput
    withContext "Failed to pipe the test input to SymCC" execution.pipeInput
  else pure ()

/-- The result of `SymCC::run`, once the input is there. -/
def Execution.result (execution : Execution) (digit : Char → Bool) (outputDir : OsString) :
    Except Error SymCCResult := do
  let result ← withContext "Failed to wait for SymCC" execution.output
  let totalTime := execution.elapsed
  let entries ← withContext ("Failed to read the generated test cases at " ++ outputDir.display)
    execution.readDir
  let names ← withContext ("Failed to read all test cases from " ++ outputDir.display)
    (entries.mapM id)
  return {
    testCases := names.map fun name ↦ ⟨outputDir, name⟩
    killed := result.killed
    time := totalTime
    solverTime := (parseSolverTime digit result.stderr).map fun t ↦ t.min totalTime }

/-- `SymCC::run` -/
def SymCC.run (digit : Char → Bool) (symcc : SymCC) (input outputDir : OsString) (w : World) :
    Except Error SymCCResult := do
  withContext ("Failed to copy the test case " ++ input.display ++ " to our workbench at " ++
    symcc.inputFile.display) w.copyInput
  withContext ("Failed to create the output directory " ++ outputDir.display ++ " for SymCC")
    w.createDir
  let execution := w.execute (symcc.analysisCommand outputDir)
  withContext "Failed to run SymCC" execution.spawn
  symcc.pipeInput execution
  execution.result digit outputDir

theorem exists_of_bind_eq_ok {ε α β : Type} {x : Except ε α} {f : α → Except ε β} {b : β}
    (h : x >>= f = .ok b) : ∃ a, x = .ok a ∧ f a = .ok b := by
  cases x with
  | error e => cases h
  | ok a => exact ⟨a, rfl, h⟩

theorem Execution.nanos_solverTime_le {execution : Execution} {digit : Char → Bool}
    {outputDir : OsString} {r : SymCCResult} (h : execution.result digit outputDir = .ok r)
    {t : Duration} (ht : r.solverTime = some t) : t.nanos ≤ r.time.nanos := by
  obtain ⟨output, -, h⟩ := exists_of_bind_eq_ok h
  obtain ⟨entries, -, h⟩ := exists_of_bind_eq_ok h
  obtain ⟨names, -, h⟩ := exists_of_bind_eq_ok h
  rw [← Except.ok.inj h] at ht ⊢
  obtain ⟨t', -, rfl⟩ := Option.map_eq_some_iff.mp ht
  exact Duration.nanos_min_le_right t' execution.elapsed

/-- No solver time exceeds the time of its execution. -/
theorem SymCC.nanos_solverTime_le {digit : Char → Bool} {symcc : SymCC} {input outputDir : OsString}
    {w : World} {r : SymCCResult} (h : symcc.run digit input outputDir w = .ok r) {t : Duration}
    (ht : r.solverTime = some t) : t.nanos ≤ r.time.nanos := by
  obtain ⟨-, -, h⟩ := exists_of_bind_eq_ok h
  obtain ⟨-, -, h⟩ := exists_of_bind_eq_ok h
  obtain ⟨-, -, h⟩ := exists_of_bind_eq_ok h
  obtain ⟨-, -, h⟩ := exists_of_bind_eq_ok h
  exact Execution.nanos_solverTime_le h ht

/-! ## Statistics -/

/-- `Stats` -/
structure Stats where
  totalCount : UInt32
  totalTime : Duration
  solverTime : Option Duration
  failedCount : UInt32
  failedTime : Duration

namespace Stats

/-- `Stats::default` -/
def default : Stats := ⟨0, .zero, none, 0, .zero⟩

/-- The sum of two solver times, where there are some. -/
def addSolverTime : Option Duration → Option Duration → Option (Option Duration)
  | none, none => some none
  | some t, none => some (some t)
  | none, some t => some (some t)
  | some a, some b => (a.add b).map some

/-- `Stats::add_execution` -/
def addExecution (s : Stats) (result : SymCCResult) : Option Stats :=
  if result.killed then do
    let failedTime ← s.failedTime.add result.time
    return { s with failedCount := s.failedCount + 1, failedTime }
  else do
    let totalTime ← s.totalTime.add result.time
    let solverTime ← addSolverTime s.solverTime result.solverTime
    return { s with totalCount := s.totalCount + 1, totalTime, solverTime }

/-- A line of the report. -/
inductive Line
  | successfulExecutions (count : UInt32)
  | timeInSuccessfulExecutions (millis : ℕ)
  | avgTimePerSuccessfulExecution (millis : ℕ)
  | solverTime (millis : ℕ)
  | solverTimeShare (share inExecution : Option ℚ)
  | avgSolverTimePerSuccessfulExecution (millis : ℕ)
  | failedExecutions (count : UInt32)
  | timeSpentOnFailedExecutions (millis : ℕ)
  | avgTimeInFailedExecutions (millis : ℕ)
  | separator

/-- `solver_share`, in binary64 arithmetic. -/
def solverShare (solverTime totalTime : Duration) : Option ℚ :=
  Binary64.mul (Binary64.div (Binary64.ofNat solverTime.asMillis)
    (Binary64.ofNat totalTime.asMillis)) (Binary64.ofNat 100)

/-- An average, if there have been executions. -/
def averageLines (avg : ℕ → Line) (time : Duration) (count : UInt32) : Option (List Line) :=
  if 0 < count then (time.div count).map fun t ↦ [avg t.asMillis] else some []

/-- The part of the report on the solver. -/
def solverLines (s : Stats) : Option (List Line) :=
  match s.solverTime with
  | none => some []
  | some st =>
    if 0 < s.totalTime.asSecs then
      (st.div s.totalCount).map fun t ↦
        [.solverTime st.asMillis,
          .solverTimeShare (solverShare st s.totalTime)
            (Binary64.sub (Binary64.ofNat 100) (solverShare st s.totalTime)),
          .avgSolverTimePerSuccessfulExecution t.asMillis]
    else some [.solverTime st.asMillis]

/-- `Stats::log`, as the lines that are written if writing does not fail. -/
def log (s : Stats) : Option (List Line) := do
  let average ← averageLines .avgTimePerSuccessfulExecution s.totalTime s.totalCount
  let solver ← solverLines s
  let averageFailed ← averageLines .avgTimeInFailedExecutions s.failedTime s.failedCount
  return [.successfulExecutions s.totalCount, .timeInSuccessfulExecutions s.totalTime.asMillis] ++
    average ++ solver ++
    [.failedExecutions s.failedCount, .timeSpentOnFailedExecutions s.failedTime.asMillis] ++
    averageFailed ++ [.separator]

/-! ## How the fields go together -/

/-- The time of some executions. -/
def nanosOf (rs : List SymCCResult) : ℕ := (rs.map fun r ↦ r.time.nanos).sum

/-- The successful executions. -/
def successful (rs : List SymCCResult) : List SymCCResult := rs.filter fun r ↦ !r.killed

def failed (rs : List SymCCResult) : List SymCCResult := rs.filter fun r ↦ r.killed

/-- The statistics of some executions. -/
structure Consistent (rs : List SymCCResult) (s : Stats) : Prop where
  totalCount : s.totalCount.toNat = (successful rs).length
  failedCount : s.failedCount.toNat = (failed rs).length
  totalTime : s.totalTime.nanos = nanosOf (successful rs)
  failedTime : s.failedTime.nanos = nanosOf (failed rs)
  /-- A solver time comes from a successful execution. -/
  solverTime : ∀ st, s.solverTime = some st →
    st.nanos ≤ s.totalTime.nanos ∧ 0 < s.totalCount.toNat

theorem Consistent.default : Consistent [] default where
  totalCount := rfl
  failedCount := rfl
  totalTime := rfl
  failedTime := rfl
  solverTime _ h := nomatch h

private theorem toNat_add_one {n : UInt32} {m : ℕ} (h : n.toNat = m) (hm : m + 1 < 2 ^ 32) :
    (n + 1).toNat = m + 1 := by
  rw [UInt32.toNat_add, h]
  exact Nat.mod_eq_of_lt hm

theorem nanosOf_concat (rs : List SymCCResult) (r : SymCCResult) :
    nanosOf (rs ++ [r]) = nanosOf rs + r.time.nanos := by
  rw [nanosOf, List.map_append, List.sum_append, List.map_singleton, List.sum_singleton, nanosOf]

theorem successful_concat (rs : List SymCCResult) (r : SymCCResult) :
    successful (rs ++ [r]) = if r.killed then successful rs else successful rs ++ [r] := by
  rw [successful, List.filter_append, List.filter_singleton]
  cases r.killed
  · rfl
  · exact List.append_nil _

theorem failed_concat (rs : List SymCCResult) (r : SymCCResult) :
    failed (rs ++ [r]) = if r.killed then failed rs ++ [r] else failed rs := by
  rw [failed, List.filter_append, List.filter_singleton]
  cases r.killed
  · exact List.append_nil _
  · rfl

theorem length_successful_add_length_failed (rs : List SymCCResult) :
    (successful rs).length + (failed rs).length = rs.length := by
  have hsplit := List.length_eq_length_filter_add (l := rs) fun r ↦ r.killed
  rw [hsplit, successful, failed, add_comm]

/-- Bounds on solver times add up. -/
theorem addSolverTime_spec {a b : Option Duration} {m n : ℕ}
    (ha : ∀ st, a = some st → st.nanos ≤ m) (hb : ∀ st, b = some st → st.nanos ≤ n)
    (h : m + n < 2 ^ 64 * 10 ^ 9) :
    ∃ c, addSolverTime a b = some c ∧ ∀ st, c = some st → st.nanos ≤ m + n := by
  cases a with
  | none =>
    cases b with
    | none => exact ⟨none, rfl, fun st hst ↦ nomatch hst⟩
    | some t =>
      refine ⟨some t, rfl, fun st hst ↦ ?_⟩
      exact (hb st hst).trans (Nat.le_add_left _ _)
  | some t =>
    cases b with
    | none =>
      refine ⟨some t, rfl, fun st hst ↦ ?_⟩
      exact (ha st hst).trans (Nat.le_add_right _ _)
    | some t' =>
      have hle : t.nanos + t'.nanos ≤ m + n := add_le_add (ha t rfl) (hb t' rfl)
      refine ⟨_, by rw [addSolverTime, Duration.add_of_lt (hle.trans_lt h), Option.map_some], ?_⟩
      intro st hst
      rw [← Option.some.inj hst]
      exact hle

/-- One more execution. -/
theorem Consistent.addExecution {rs : List SymCCResult} {s : Stats} (h : Consistent rs s)
    {r : SymCCResult} (hr : ∀ t, r.solverTime = some t → t.nanos ≤ r.time.nanos)
    (hlength : (rs ++ [r]).length < 2 ^ 32)
    (htime : nanosOf (successful (rs ++ [r])) < 2 ^ 64 * 10 ^ 9)
    (hfailed : nanosOf (failed (rs ++ [r])) < 2 ^ 64 * 10 ^ 9) :
    ∃ s', s.addExecution r = some s' ∧ Consistent (rs ++ [r]) s' := by
  have hsum := length_successful_add_length_failed rs
  rw [List.length_append, List.length_singleton] at hlength
  unfold Stats.addExecution
  cases hkilled : r.killed with
  | true =>
    have hsuccessful : successful (rs ++ [r]) = successful rs := by
      rw [successful_concat, hkilled, if_pos rfl]
    have hfails : failed (rs ++ [r]) = failed rs ++ [r] := by
      rw [failed_concat, hkilled, if_pos rfl]
    rw [hfails, nanosOf_concat, ← h.failedTime] at hfailed
    refine ⟨_, by rw [if_pos rfl, Duration.add_of_lt hfailed]; rfl, ?_⟩
    exact {
      totalCount := by rw [hsuccessful, h.totalCount]
      failedCount := by
        rw [hfails, List.length_append]
        exact toNat_add_one h.failedCount (by omega)
      totalTime := by rw [hsuccessful, h.totalTime]
      failedTime := by rw [hfails, nanosOf_concat, ← h.failedTime]
      solverTime := h.solverTime }
  | false =>
    have hsuccessful : successful (rs ++ [r]) = successful rs ++ [r] := by
      rw [successful_concat, hkilled, if_neg Bool.false_ne_true]
    have hfails : failed (rs ++ [r]) = failed rs := by
      rw [failed_concat, hkilled, if_neg Bool.false_ne_true]
    rw [hsuccessful, nanosOf_concat, ← h.totalTime] at htime
    obtain ⟨solverTime, hsolver, hle⟩ :=
      addSolverTime_spec (fun st hst ↦ (h.solverTime st hst).1) hr htime
    have hcount : (s.totalCount + 1).toNat = (successful rs).length + 1 :=
      toNat_add_one h.totalCount (by omega)
    refine ⟨_, by rw [if_neg Bool.false_ne_true, Duration.add_of_lt htime, hsolver]; rfl, ?_⟩
    exact {
      totalCount := by
        rw [hsuccessful, List.length_append]
        exact hcount
      failedCount := by rw [hfails, h.failedCount]
      totalTime := by rw [hsuccessful, nanosOf_concat, ← h.totalTime]
      failedTime := by rw [hfails, h.failedTime]
      solverTime := fun st hst ↦ ⟨hle st hst, hcount ▸ Nat.succ_pos _⟩ }

/-- All executions so far. -/
theorem exists_consistent {rs : List SymCCResult}
    (hr : ∀ r ∈ rs, ∀ t, r.solverTime = some t → t.nanos ≤ r.time.nanos)
    (hlength : rs.length < 2 ^ 32) (htime : nanosOf (successful rs) < 2 ^ 64 * 10 ^ 9)
    (hfailed : nanosOf (failed rs) < 2 ^ 64 * 10 ^ 9) :
    ∃ s, rs.foldlM Stats.addExecution default = some s ∧ Consistent rs s := by
  induction rs using List.reverseRecOn with
  | nil => exact ⟨default, rfl, Consistent.default⟩
  | append_singleton rs r ih =>
    have hlength' : rs.length < 2 ^ 32 := by
      rw [List.length_append] at hlength
      exact (Nat.le_add_right _ _).trans_lt hlength
    have htime' : nanosOf (successful rs) < 2 ^ 64 * 10 ^ 9 := by
      refine lt_of_le_of_lt ?_ htime
      rw [successful_concat]
      split
      · exact le_rfl
      · exact nanosOf_concat .. ▸ Nat.le_add_right _ _
    have hfailed' : nanosOf (failed rs) < 2 ^ 64 * 10 ^ 9 := by
      refine lt_of_le_of_lt ?_ hfailed
      rw [failed_concat]
      split
      · exact nanosOf_concat .. ▸ Nat.le_add_right _ _
      · exact le_rfl
    rw [List.forall_mem_append, List.forall_mem_singleton] at hr
    obtain ⟨s, hs, hconsistent⟩ := ih hr.1 hlength' htime' hfailed'
    obtain ⟨s', hs', hconsistent'⟩ := hconsistent.addExecution hr.2 hlength htime hfailed
    have hlast : [r].foldlM Stats.addExecution s = some s' := by
      rw [List.foldlM_cons, hs']
      rfl
    refine ⟨s', ?_, hconsistent'⟩
    rw [List.foldlM_append, hs]
    exact hlast

/-! ## The report -/

/-- A part of a time that is not shorter than a second is a percentage of it. -/
theorem solverShare_spec {st total : Duration} (h : st.nanos ≤ total.nanos)
    (hsecs : 0 < total.asSecs) : ∃ p, solverShare st total = some p ∧ 0 ≤ p ∧ p ≤ 100 := by
  have hle : st.asMillis ≤ total.asMillis := Nat.div_le_div_right h
  have hpos : 0 < total.asMillis := by
    unfold Duration.asSecs at hsecs
    unfold Duration.asMillis
    omega
  have hlt : total.asMillis ≤ 2 ^ 100 := by
    have := total.lt
    unfold Duration.asMillis
    omega
  exact Binary64.percentage_mem_Icc hle hpos hlt

/-- The share that is reported, and what remains of it. -/
theorem shares_spec {st total : Duration} (h : st.nanos ≤ total.nanos) (hsecs : 0 < total.asSecs) :
    (∃ p, solverShare st total = some p ∧ 0 ≤ p ∧ p ≤ 100) ∧
      ∃ p, Binary64.sub (Binary64.ofNat 100) (solverShare st total) = some p ∧ 0 ≤ p ∧ p ≤ 100 := by
  obtain ⟨p, hp, hp0, hp100⟩ := solverShare_spec h hsecs
  refine ⟨⟨p, hp, hp0, hp100⟩, ?_⟩
  rw [hp]
  exact Binary64.sub_percentage_mem_Icc hp0 hp100

/-- The shares in some lines are percentages. -/
def InRange (lines : List Line) : Prop :=
  ∀ share inExecution, Line.solverTimeShare share inExecution ∈ lines →
    (∃ p, share = some p ∧ 0 ≤ p ∧ p ≤ 100) ∧ ∃ p, inExecution = some p ∧ 0 ≤ p ∧ p ≤ 100

theorem InRange.append {l l' : List Line} (h : InRange l) (h' : InRange l') : InRange (l ++ l') :=
  fun share inExecution hmem ↦
    (List.mem_append.mp hmem).elim (h share inExecution) (h' share inExecution)

private theorem exists_averageLines (avg : ℕ → Line) (time : Duration) (count : UInt32) :
    ∃ l, averageLines avg time count = some l ∧ ∀ line ∈ l, ∃ millis, line = avg millis := by
  unfold averageLines
  split
  · next hpos =>
    have hne : count ≠ 0 := fun h ↦ absurd hpos (by rw [h]; decide)
    refine ⟨_, by rw [Duration.div_of_ne hne, Option.map_some], ?_⟩
    exact List.forall_mem_singleton.mpr ⟨_, rfl⟩
  · exact ⟨[], rfl, List.forall_mem_nil _⟩

/-- There is a solver time only after a successful execution. -/
theorem Consistent.exists_solverLines {rs : List SymCCResult} {s : Stats} (h : Consistent rs s) :
    ∃ l, solverLines s = some l ∧ InRange l := by
  unfold solverLines
  cases hsolver : s.solverTime with
  | none => exact ⟨[], rfl, fun _ _ hmem ↦ absurd hmem List.not_mem_nil⟩
  | some st =>
    obtain ⟨hle, hcount⟩ := h.solverTime st hsolver
    have hne : s.totalCount ≠ 0 := fun h0 ↦ absurd hcount (by rw [h0]; decide)
    simp only
    split
    · next hsecs =>
      refine ⟨_, by rw [Duration.div_of_ne hne, Option.map_some], fun share inExecution hmem ↦ ?_⟩
      simp only [List.mem_cons, List.not_mem_nil, or_false, reduceCtorEq, false_or,
        Line.solverTimeShare.injEq] at hmem
      obtain ⟨rfl, rfl⟩ := hmem
      exact shares_spec hle hsecs
    · refine ⟨_, rfl, fun share inExecution hmem ↦ ?_⟩
      cases List.mem_singleton.mp hmem

/-- The report divides by no count and no time that is zero, and the shares are percentages. -/
theorem Consistent.exists_log {rs : List SymCCResult} {s : Stats} (h : Consistent rs s) :
    ∃ lines, s.log = some lines ∧ InRange lines := by
  obtain ⟨average, haverage, hlines⟩ :=
    exists_averageLines .avgTimePerSuccessfulExecution s.totalTime s.totalCount
  obtain ⟨solver, hsolver, hrange⟩ := h.exists_solverLines
  obtain ⟨averageFailed, haverageFailed, hfailed⟩ :=
    exists_averageLines .avgTimeInFailedExecutions s.failedTime s.failedCount
  have hother : ∀ l : List Line,
      (∀ line ∈ l, ∀ share inExecution, line ≠ .solverTimeShare share inExecution) → InRange l :=
    fun l hl share inExecution hmem ↦ absurd rfl (hl _ hmem share inExecution)
  refine ⟨_, by rw [Stats.log, haverage, hsolver, haverageFailed]; rfl, ?_⟩
  refine ((((InRange.append ?_ ?_).append hrange).append ?_).append ?_).append ?_
  · exact hother _ (by simp)
  · exact hother _ fun line hline ↦ by obtain ⟨millis, rfl⟩ := hlines line hline; simp
  · exact hother _ (by simp)
  · exact hother _ fun line hline ↦ by obtain ⟨millis, rfl⟩ := hfailed line hline; simp
  · exact hother _ (by simp)

end Stats

/-- For executions that `run` has reported, fewer than `2 ^ 32` and with times that do not overflow
when they are added up: every execution is counted, the solver time is at most the total time, and
the report divides by no zero and has percentages for the shares of the solver. -/
theorem statistics_in_range {digit : Char → Bool} {symcc : SymCC} {rs : List SymCCResult}
    (hrun : ∀ r ∈ rs, ∃ input outputDir w, symcc.run digit input outputDir w = .ok r)
    (hlength : rs.length < 2 ^ 32) (htime : Stats.nanosOf (Stats.successful rs) < 2 ^ 64 * 10 ^ 9)
    (hfailed : Stats.nanosOf (Stats.failed rs) < 2 ^ 64 * 10 ^ 9) :
    ∃ stats, rs.foldlM Stats.addExecution Stats.default = some stats ∧
      stats.totalCount.toNat + stats.failedCount.toNat = rs.length ∧
      (∀ st, stats.solverTime = some st → st.nanos ≤ stats.totalTime.nanos) ∧
      ∃ lines, stats.log = some lines ∧
        ∀ share inExecution, Stats.Line.solverTimeShare share inExecution ∈ lines →
          (∃ p, share = some p ∧ 0 ≤ p ∧ p ≤ 100) ∧
            ∃ p, inExecution = some p ∧ 0 ≤ p ∧ p ≤ 100 := by
  have hclamped : ∀ r ∈ rs, ∀ t, r.solverTime = some t → t.nanos ≤ r.time.nanos := by
    intro r hr t ht
    obtain ⟨input, outputDir, w, hok⟩ := hrun r hr
    exact SymCC.nanos_solverTime_le hok ht
  obtain ⟨stats, hstats, hconsistent⟩ := Stats.exists_consistent hclamped hlength htime hfailed
  refine ⟨stats, hstats, ?_, fun st hst ↦ (hconsistent.solverTime st hst).1,
    hconsistent.exists_log⟩
  rw [hconsistent.totalCount, hconsistent.failedCount, Stats.length_successful_add_length_failed]

def secondAndAHalf : Duration := .fromMicros 1500000

/-- A world in which an execution takes a second and a half. -/
def oneExecution (code : ℤ) : World where
  copyInput := .ok ()
  createDir := .ok ()
  execute _ :=
    { spawn := .ok ()
      openInput := .ok ()
      pipeInput := .ok ()
      output := .ok ⟨some code, none,
        ByteText.ascii "[STAT] SMT: \x7b \"solving_time\": 2000000 \x7d".toList⟩
      elapsed := secondAndAHalf
      readDir := .ok [] }

/-- An execution that reports more solver time than it takes, and one that is killed. -/
theorem statistics_in_range_two_executions :
    let results : List SymCCResult :=
      [⟨[], false, secondAndAHalf, some secondAndAHalf⟩,
        ⟨[], true, secondAndAHalf, some secondAndAHalf⟩]
    ∃ stats, results.foldlM Stats.addExecution Stats.default = some stats ∧
      stats.totalCount.toNat + stats.failedCount.toNat = 2 ∧
      (∀ st, stats.solverTime = some st → st.nanos ≤ stats.totalTime.nanos) ∧
      ∃ lines, stats.log = some lines ∧
        ∀ share inExecution, Stats.Line.solverTimeShare share inExecution ∈ lines →
          (∃ p, share = some p ∧ 0 ≤ p ∧ p ≤ 100) ∧
            ∃ p, inExecution = some p ∧ 0 ≤ p ∧ p ≤ 100 := by
  intro results
  refine @statistics_in_range Char.isDigit ⟨false, ⟨[]⟩, ⟨[]⟩, []⟩ _
    (List.forall_mem_cons.mpr ⟨?_, List.forall_mem_singleton.mpr ?_⟩)
    (by decide) (by decide) (by decide)
  · exact ⟨⟨[]⟩, ⟨[]⟩, oneExecution 0, rfl⟩
  · exact ⟨⟨[]⟩, ⟨[]⟩, oneExecution 124, rfl⟩

end Statistics

end FuzzingHelper

end Adacc
