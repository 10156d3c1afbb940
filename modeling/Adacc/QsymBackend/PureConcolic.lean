import Adacc.Foundation.Machine
import Adacc.Foundation.TextFile
import Adacc.Runtime.Backend

/-!
# Pure-concolic mode of the QSYM backend

In pure-concolic mode `qsym_backend/Runtime.cpp` decides for every path constraint whether the
solver should write out an input for it. The decision rests on what the runs so far have seen: how
often each block was visited, and for each direction of a branch the blocks and the sets of blocks
from which it was taken. A set of blocks is represented by the 32-bit sum of the blocks' ids.

This history is kept in four files. `pure_concolic_should_save` reads them when it is called for
the first time; the destructor `__dtor_runtime` merges the counters and writes all four.

A process is a `Machine` over the two callbacks of the instrumented program. Its answers are the
calls that reach the solver. The files are an argument: nothing writes them while the program runs.
`std::map` is an ordered map, so its contents have one textual form. `long` has `longBits` bits.
-/

namespace Adacc

open TextFile

namespace PureConcolic

/-- `std::map<uint32_t, uint32_t>` -/
abbrev CounterMap := Std.ExtTreeMap UInt32 UInt32

/-- The files of the history, in the working directory; `none` for a file that does not exist. -/
structure Files where
  /-- `corpus_counters.stats` -/
  corpusCounters : Option (List Char)
  /-- `prev_0s.txt` -/
  prev0s : Option (List Char)
  /-- `prev_1s.txt` -/
  prev1s : Option (List Char)
  /-- `trace_maps.txt` -/
  traceMaps : Option (List Char)
  deriving DecidableEq

/-- No file exists. -/
def Files.empty : Files := ⟨none, none, none, none⟩

/-- What an `ifstream` delivers; nothing for a file that does not exist. -/
def contents (file : Option (List Char)) : List Char := file.getD []

/-! ## The files' contents -/

/-- The loop that reads `corpus_counters.stats`: an id and its count on alternating lines. -/
def readPairs : List UInt32 → CounterMap → CounterMap
  | cbId :: cbCount :: lines, old => readPairs lines (old.insert cbId cbCount)
  | _, old => old

/-- The counters in `corpus_counters.stats`, added to a map. -/
def readCounters (longBits : ℕ) (file : Option (List Char)) (old : CounterMap) : CounterMap :=
  readPairs (readNumbers longBits (contents file)) old

/-- The ids in one of the other files. -/
def readIds (longBits : ℕ) (file : Option (List Char)) : List UInt32 :=
  readNumbers longBits (contents file)

/-- The loop that writes `corpus_counters.stats`. -/
def writeCounters (counters : CounterMap) : List Char :=
  writeNumbers (counters.toList.flatMap fun entry ↦ [entry.1, entry.2])

/-! ## A process -/

/-- The variables of the runtime that pure-concolic mode uses. -/
structure Process where
  counterMap : CounterMap
  oldCounterMap : CounterMap
  takens0 : List UInt32
  takens1 : List UInt32
  traceMaps : List UInt32
  currTraceMap : UInt32
  justVisitedBb : UInt32
  previouslyBlockedASave : Bool
  siteIds : List UIntPtr
  mapInitialised : Bool
  tracemapsInitialised : Bool
  prevBlocksInitialised : Bool

/-- The variables' initial values. -/
def Process.init : Process where
  counterMap := ∅
  oldCounterMap := ∅
  takens0 := []
  takens1 := []
  traceMaps := []
  currTraceMap := 0
  justVisitedBb := 0
  previouslyBlockedASave := false
  siteIds := []
  mapInitialised := false
  tracemapsInitialised := false
  prevBlocksInitialised := false

/-- `takens_1` for a branch that was taken, `takens_0` for one that was not. -/
def Process.takens (s : Process) (taken : Bool) : List UInt32 :=
  if taken then s.takens1 else s.takens0

/-- `_symcc_cov_cb`, and whether it calls `g_solver->checkAndSave`. -/
def symccCovCb (s : Process) (cbId : UInt32) : Process × Bool :=
  match s.counterMap[cbId]? with
  | none =>
    ({ s with
        counterMap := s.counterMap.insert cbId 1
        currTraceMap := s.currTraceMap + cbId
        justVisitedBb := cbId },
      !s.oldCounterMap.contains cbId && s.previouslyBlockedASave)
  | some count =>
    ({ s with counterMap := s.counterMap.insert cbId (count + 1), justVisitedBb := cbId }, false)

/-- The part of `pure_concolic_should_save` that reads the files. -/
def loadHistory (longBits : ℕ) (files : Files) (s : Process) : Process :=
  let s :=
    if s.mapInitialised then s
    else
      { s with
        oldCounterMap := readCounters longBits files.corpusCounters s.oldCounterMap
        mapInitialised := true }
  let s :=
    if s.tracemapsInitialised then s
    else
      { s with
        traceMaps := s.traceMaps ++ readIds longBits files.traceMaps
        tracemapsInitialised := true }
  if s.prevBlocksInitialised then s
  else
    { s with
      takens0 := s.takens0 ++ readIds longBits files.prev0s
      takens1 := s.takens1 ++ readIds longBits files.prev1s
      prevBlocksInitialised := true }

/-- The loop over the counters of this run that looks for one that the history does not have. -/
def Process.hasBetterCounter (s : Process) : Bool :=
  s.counterMap.toList.any fun entry ↦
    match s.oldCounterMap[entry.1]? with
    | none => true
    | some old => old < entry.2

/-- Search a vector, append the target if it was not found, and tell whether it was not. -/
def appendIfMissing (ids : List UInt32) (target : UInt32) : List UInt32 × Bool :=
  if target ∈ ids then (ids, false) else (ids ++ [target], true)

/-- The two searches in `takens_0` or `takens_1`: for the last block and for the set of blocks. -/
def recordTaken (ids : List UInt32) (justVisitedBb currTraceMap : UInt32) : List UInt32 × Bool :=
  let (ids, missing) := appendIfMissing ids justVisitedBb
  let (ids, missing') := appendIfMissing ids currTraceMap
  (ids, missing || missing')

/-- The direction of a branch: C takes any non-zero `int` as true. -/
def isTaken (taken : BitVec 32) : Bool := taken != 0

/-- The part of `pure_concolic_should_save` that looks at the vector of the direction taken. -/
def Process.recordDirection (s : Process) (taken : Bool) : Process × Bool :=
  if taken then
    let (takens1, shouldSave) := recordTaken s.takens1 s.justVisitedBb s.currTraceMap
    ({ s with takens1 }, shouldSave)
  else
    let (takens0, shouldSave) := recordTaken s.takens0 s.justVisitedBb s.currTraceMap
    ({ s with takens0 }, shouldSave)

/-- The part of `pure_concolic_should_save` after the files have been read. -/
def Process.decideSave (s : Process) (taken : Bool) (siteId : UIntPtr) : Process × Bool :=
  let shouldSave := s.hasBetterCounter
  let (s, shouldSave2) := s.recordDirection taken
  let (traceMaps, shouldSave3) := appendIfMissing s.traceMaps s.currTraceMap
  let shouldSave := shouldSave || shouldSave2 || shouldSave3
  -- all cases of a switch that has been saved once are saved
  let shouldSave := shouldSave || s.siteIds.contains siteId
  let siteIds := if shouldSave then s.siteIds ++ [siteId] else s.siteIds
  ({ s with traceMaps, siteIds, previouslyBlockedASave := !shouldSave }, shouldSave)

/-- `pure_concolic_should_save` -/
def pureConcolicShouldSave (longBits : ℕ) (files : Files) (s : Process) (taken : BitVec 32)
    (siteId : UIntPtr) : Process × Bool :=
  (loadHistory longBits files s).decideSave (isTaken taken) siteId

/-- The callbacks of the instrumented program, with the constraint's null pointer as `none`. -/
inductive Event (SymExpr : Type)
  | symccCovCb (cbId : UInt32)
  | symPushPathConstraint (constraint : Option SymExpr) (taken : BitVec 32) (siteId : UIntPtr)

/-- The calls that reach the solver. -/
inductive SolverCall
  | none
  | checkAndSave
  | addJcc (shouldSave : Bool)
  deriving DecidableEq

variable {SymExpr : Type}

/-- One callback. -/
def step (longBits : ℕ) (files : Files) (s : Process) : Event SymExpr → Process × SolverCall
  | .symccCovCb cbId =>
    let (s, save) := symccCovCb s cbId
    (s, if save then .checkAndSave else .none)
  | .symPushPathConstraint none _ _ => (s, .none)
  | .symPushPathConstraint (some _) taken siteId =>
    let (s, shouldSave) := pureConcolicShouldSave longBits files s taken siteId
    (s, .addJcc shouldSave)

theorem step_cov (longBits : ℕ) (files : Files) (s : Process) (cbId : UInt32) :
    step longBits files s (.symccCovCb cbId : Event SymExpr)
      = ((symccCovCb s cbId).1, if (symccCovCb s cbId).2 then .checkAndSave else .none) := rfl

theorem step_call (longBits : ℕ) (files : Files) (s : Process) (c : SymExpr) (taken : BitVec 32)
    (siteId : UIntPtr) :
    step longBits files s (.symPushPathConstraint (some c) taken siteId)
      = ((pureConcolicShouldSave longBits files s taken siteId).1,
          .addJcc (pureConcolicShouldSave longBits files s taken siteId).2) := rfl

/-- One turn of the loop in the destructor that merges the counters. -/
def mergeCounter (old : CounterMap) (entry : UInt32 × UInt32) : CounterMap :=
  match old[entry.1]? with
  | none => old.insert entry.1 entry.2
  | some v => if v < entry.2 then old.insert entry.1 entry.2 else old

/-- The loop in the destructor that merges the counters. -/
def mergeCounters (counterMap old : CounterMap) : CounterMap :=
  counterMap.toList.foldl mergeCounter old

/-- `__dtor_runtime`: the files it leaves. -/
def dtorRuntime (s : Process) : Files where
  corpusCounters := some (writeCounters (mergeCounters s.counterMap s.oldCounterMap))
  prev0s := some (writeNumbers s.takens0)
  prev1s := some (writeNumbers s.takens1)
  traceMaps := some (writeNumbers s.traceMaps)

/-- The state of a process after some callbacks. -/
def after (longBits : ℕ) (files : Files) (events : List (Event SymExpr)) : Process :=
  (Machine.run (step longBits files) .init events).1

/-- What reaches the solver in a run. -/
def solverCalls (longBits : ℕ) (files : Files) (events : List (Event SymExpr)) : List SolverCall :=
  (Machine.run (step longBits files) .init events).2

/-- A whole run: the callbacks, and then the destructor. -/
def runProcess (longBits : ℕ) (files : Files) (events : List (Event SymExpr)) : Files :=
  dtorRuntime (after longBits files events)

end PureConcolic

end Adacc
