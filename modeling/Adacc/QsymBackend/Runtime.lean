import Adacc.QsymBackend.PureConcolic
import Adacc.Runtime.LibcWrappers
import Adacc.SimpleBackend.Builders

/-!
# Initialization, the calls of a program, and the end

`qsym_backend/Runtime.cpp` as a whole: `_sym_initialize` reads the configuration, provides an input
file, and creates the solver and the expression builder; then the program calls wrappers, builders,
coverage callbacks and `_sym_push_path_constraint`; `__dtor_runtime` ends the run. With
`SYMCC_SILENT` the library should do all of this without printing.

The solver is another project's. It is the arguments of its constructor, its timeout, and the calls
that have reached it, on which everything that it writes depends. Expression builders are arbitrary,
one backend for each of the two classes. Without an expression builder or a solver, a call that
needs one dereferences a null pointer, which is the end of the program (`crashed`).

`exit` runs the handler that removes the temporary file. The program may have ended in this way
already, by a failed `freopen`, when the destructor is called.

What has been printed is a component of the state that nothing reads. `Same` is equality of
everything else, and every operation keeps it between a run that prints and a silent one. The
exception is initialization: `agree_iff` says that the two runs agree exactly if the execution is
not fully concrete.
-/

namespace Adacc

namespace QsymRuntime

/-! ## Configuration and state -/

/-- `g_config`, as far as the QSYM backend uses it. -/
structure QsymConfig extends Config where
  /-- in seconds -/
  solverTimeout : SizeT
  outputDir : CString
  pruning : Bool
  isPureConcolic : Bool
  aflCoverageMap : CString

/-- The configuration with or without `SYMCC_SILENT`. -/
def QsymConfig.withSilent (cfg : QsymConfig) (silent : Bool) : QsymConfig := { cfg with silent }

section WithSilent

variable (cfg : QsymConfig) (silent : Bool)

@[simp] theorem QsymConfig.silent_withSilent : (cfg.withSilent silent).silent = silent := rfl

@[simp] theorem QsymConfig.fullyConcrete_withSilent :
    (cfg.withSilent silent).fullyConcrete = cfg.fullyConcrete := rfl

@[simp] theorem QsymConfig.inputFile_withSilent :
    (cfg.withSilent silent).inputFile = cfg.inputFile := rfl

@[simp] theorem QsymConfig.isPureConcolic_withSilent :
    (cfg.withSilent silent).isPureConcolic = cfg.isPureConcolic := rfl

end WithSilent

/-- What is outside of the library. -/
structure Environment where
  /-- The standard input until its end. -/
  stdin : List (BitVec 8)
  /-- The name that `tmpnam` makes up. -/
  tmpnam : CString
  /-- Whether standard input can be reopened. -/
  freopenSucceeds : Bool
  /-- The files of pure-concolic mode. -/
  files : PureConcolic.Files
  longBits : ℕ
  /-- The addresses of the wrappers. -/
  address : LibcFunction → UIntPtr

/-- The class of `g_expr_builder`. -/
inductive ExprBuilder
  | prune
  | symbolic
  deriving DecidableEq

/-- The arguments of the constructor of `g_solver`, and the argument of `setTimeout`. -/
structure Solver where
  inputFile : CString
  outputDir : CString
  aflCoverageMap : CString
  timeout : BitVec 32
  deriving DecidableEq

/-- The calls that reach the solver. -/
inductive SolverRequest (SymExpr : Type)
  | addJcc (constraint : SymExpr) (taken : Bool) (siteId : UIntPtr) (shouldSave : Bool)
  | checkAndSave

/-- The two output streams. -/
inductive OutputStream
  | cout
  | cerr

inductive Status
  | running
  | exited (code : Int32)
  | crashed
  deriving DecidableEq

/-- What has become of the stream `stdin`. `freopen` closes it before it opens the file. -/
inductive StandardInput
  | original
  | reopened (file : CString)
  | closed
  deriving DecidableEq

/-- The state of the library, and what the process has done to files and standard input. -/
structure State (SymExpr : Type) where
  status : Status
  /-- `g_initialized` -/
  initialized : Bool
  /-- `dtor_done` -/
  dtorDone : Bool
  inputFileName : CString
  /-- `g_solver` -/
  solver : Option Solver
  /-- `g_expr_builder` -/
  exprBuilder : Option ExprBuilder
  libc : LibcState SymExpr
  process : PureConcolic.Process
  requests : List (SolverRequest SymExpr)
  /-- The number of bytes that have been read from the original standard input. -/
  stdinConsumed : ℕ
  standardInput : StandardInput
  /-- The temporary file and its contents, while it exists. -/
  temporary : Option (CString × List (BitVec 8))
  /-- Whether `deleteInputFile` is to be called at exit. -/
  deletesInputFile : Bool
  /-- The files of pure-concolic mode. -/
  files : PureConcolic.Files
  printed : List (OutputStream × String)

namespace State

variable {SymExpr : Type}

/-- The state before `_sym_initialize`. -/
def init (env : Environment) : State SymExpr where
  status := .running
  initialized := false
  dtorDone := false
  inputFileName := []
  solver := none
  exprBuilder := none
  libc := .init
  process := .init
  requests := []
  stdinConsumed := 0
  standardInput := .original
  temporary := none
  deletesInputFile := false
  files := env.files
  printed := []

def print (stream : OutputStream) (line : String) (s : State SymExpr) : State SymExpr :=
  { s with printed := s.printed ++ [(stream, line)] }

/-- Print unless `SYMCC_SILENT` is set. -/
def diagnose (cfg : QsymConfig) (stream : OutputStream) (line : String) (s : State SymExpr) :
    State SymExpr :=
  if cfg.silent = false then s.print stream line else s

/-- A null pointer has been dereferenced. -/
def crash (s : State SymExpr) : State SymExpr := { s with status := .crashed }

/-! ## Initialization and the end -/

/-- `deleteInputFile` -/
def deleteInputFile (cfg : QsymConfig) (s : State SymExpr) : State SymExpr :=
  { s.diagnose cfg .cout " in delete input file" with temporary := none }

/-- `exit`, which calls every registered handler once. -/
def exit (cfg : QsymConfig) (code : Int32) (s : State SymExpr) : State SymExpr :=
  let s :=
    if s.deletesInputFile then { s with deletesInputFile := false }.deleteInputFile cfg else s
  { s with status := .exited code }

/-- The part of `_sym_initialize` that copies standard input to a temporary file and registers the
handler. -/
def saveStdin (env : Environment) (s : State SymExpr) : State SymExpr :=
  { s with
    stdinConsumed := s.stdinConsumed + env.stdin.length
    inputFileName := env.tmpnam
    temporary := some (env.tmpnam, env.stdin)
    deletesInputFile := true }

/-- The part of `_sym_initialize` that provides the input file. -/
def loadInput (cfg : QsymConfig) (env : Environment) (s : State SymExpr) : State SymExpr :=
  if cfg.inputFile.isEmpty then
    let s := s.diagnose cfg .cerr "Reading program input until EOF (use Ctrl+D in a terminal)..."
    let s := s.saveStdin env
    if env.freopenSucceeds then { s with standardInput := .reopened env.tmpnam }
    else
      let s := { s with standardInput := .closed }
      (s.print .cerr "Failed to reopen stdin").exit cfg (-1)
  else
    let s := { s with inputFileName := cfg.inputFile }
    s.diagnose cfg .cerr ("Making data read from " ++
      String.ofList (s.inputFileName.map fun byte ↦ Char.ofNat byte.toNat) ++ " as symbolic")

/-- The part of `_sym_initialize` that creates the solver and the expression builder. -/
def createSolver (cfg : QsymConfig) (s : State SymExpr) : State SymExpr :=
  { s with
    solver := some ⟨s.inputFileName, cfg.outputDir, cfg.aflCoverageMap,
      (cfg.solverTimeout * 1000).setWidth 32⟩
    exprBuilder := some (if cfg.pruning then .prune else .symbolic) }

/-- `_sym_initialize` after the first messages. -/
def loadInputAndCreateSolver (cfg : QsymConfig) (env : Environment) (s : State SymExpr) :
    State SymExpr :=
  let s := s.loadInput cfg env
  if s.status = .running then s.createSolver cfg else s

/-- The part of `_sym_initialize` before the first message. -/
def initLibcWrappers (cfg : QsymConfig) (s : State SymExpr) : State SymExpr :=
  { s with initialized := true, libc := s.libc.initLibcWrappers cfg.toConfig }

/-- `_sym_initialize` -/
def symInitialize (cfg : QsymConfig) (env : Environment) (s : State SymExpr) : State SymExpr :=
  if s.initialized then s
  else
    let s := s.initLibcWrappers cfg
    if cfg.silent = false then
      let s := s.print .cerr "This is SymCC running with the QSYM backend"
      if cfg.fullyConcrete then
        s.print .cerr "Performing fully concrete execution (i.e., without symbolic input)"
      else s.loadInputAndCreateSolver cfg env
    else s.loadInputAndCreateSolver cfg env

/-- The part of `__dtor_runtime` that merges the counters and writes the files. -/
def writeFiles (s : State SymExpr) : State SymExpr :=
  { s with
    process := { s.process with
      oldCounterMap := PureConcolic.mergeCounters s.process.counterMap s.process.oldCounterMap }
    files := PureConcolic.dtorRuntime s.process }

/-- The part of `__dtor_runtime` for pure-concolic mode, after the guard. -/
def writeHistory (cfg : QsymConfig) (s : State SymExpr) : State SymExpr :=
  let s := { s with dtorDone := true }
  let s := s.diagnose cfg .cerr "Inside of dtor, going through all counters"
  let s := s.diagnose cfg .cerr "Preparing to write corpus counter"
  s.writeFiles.diagnose cfg .cerr "Done going through the counters"

/-- `__dtor_runtime`, which `exit` also calls. -/
def dtorRuntime (cfg : QsymConfig) (s : State SymExpr) : State SymExpr :=
  if s.status = .crashed then s
  else if cfg.isPureConcolic then
    if s.dtorDone then s else (s.writeHistory cfg).exit cfg 0
  else s.exit cfg 0

/-! ## Calls -/

/-- The messages of `pure_concolic_should_save` about the process `s`, which has read the files. -/
def shouldSaveMessages (s : PureConcolic.Process) (taken : BitVec 32) (siteId : UIntPtr)
    (shouldSave : Bool) : List String :=
  let better := s.counterMap.toList.find? fun entry ↦
    match s.oldCounterMap[entry.1]? with
    | none => true
    | some old => old < entry.2
  let found :=
    match better with
    | none => []
    | some entry =>
      if s.oldCounterMap.contains entry.1 then []
      else ["Found counter not in old map " ++ toString entry.1]
  found ++ [if shouldSave then "Should save" else "Should not save",
    "Taken " ++ toString taken.toInt,
    "Siteid " ++ toString siteId.toNat ++ " , Taken " ++ toString taken.toInt] ++
    if shouldSave then ["Saving"] else []

/-- `pure_concolic_should_save` -/
def pureConcolicShouldSave (cfg : QsymConfig) (env : Environment) (taken : BitVec 32)
    (siteId : UIntPtr) (s : State SymExpr) : State SymExpr × Bool :=
  let (process, shouldSave) :=
    PureConcolic.pureConcolicShouldSave env.longBits s.files s.process taken siteId
  let messages := shouldSaveMessages (PureConcolic.loadHistory env.longBits s.files s.process)
    taken siteId shouldSave
  (messages.foldl (fun s line ↦ s.diagnose cfg .cerr line) { s with process }, shouldSave)

/-- The call of `addJcc`. -/
def addJcc (constraint : SymExpr) (taken : BitVec 32) (siteId : UIntPtr) (shouldSave : Bool)
    (s : State SymExpr) : State SymExpr :=
  match s.solver with
  | none => s.crash
  | some _ =>
    { s with
      requests := s.requests ++
        [.addJcc constraint (PureConcolic.isTaken taken) siteId shouldSave] }

/-- The call of `checkAndSave`. -/
def checkAndSave (s : State SymExpr) : State SymExpr :=
  match s.solver with
  | none => s.crash
  | some _ => { s with requests := s.requests ++ [.checkAndSave] }

/-- `_sym_push_path_constraint` -/
def symPushPathConstraint (cfg : QsymConfig) (env : Environment) (constraint : Option SymExpr)
    (taken : BitVec 32) (siteId : UIntPtr) (s : State SymExpr) : State SymExpr :=
  match constraint with
  | none => s
  | some constraint =>
    let (s, shouldSave) :=
      if cfg.isPureConcolic then s.pureConcolicShouldSave cfg env taken siteId else (s, true)
    s.addJcc constraint taken siteId shouldSave

/-- `_symcc_cov_cb` -/
def symccCovCb (cbId : UInt32) (s : State SymExpr) : State SymExpr :=
  let (process, save) := PureConcolic.symccCovCb s.process cbId
  let s := { s with process }
  if save then s.checkAndSave else s

/-- Whether a wrapper has built an expression. It leaves those that it builds in constraints, in the
shadow of input bytes, which advances the offset, or in the return slot. -/
def buildsExpression (s s' : LibcState SymExpr) : LibcCall → Bool
  | .read .. | .fread .. | .fgets .. | .getc .. | .fgetc .. =>
    !s'.pathConstraints.isEmpty || s'.inputOffset != s.inputOffset
  | .ntohl => (s.param 0).isSome
  | _ => !s'.pathConstraints.isEmpty

/-- One constraint from a wrapper. -/
def pushFromWrapper (cfg : QsymConfig) (env : Environment) (s : State SymExpr)
    (c : PathConstraint SymExpr) : State SymExpr :=
  if s.status = .running then
    s.symPushPathConstraint cfg env (some c.constraint) (if c.taken then 1 else 0)
      (env.address c.site)
  else s

/-- What a wrapper has done, apart from its constraints. -/
def setLibc (libc : LibcState SymExpr) (s : State SymExpr) : State SymExpr :=
  { s with
    libc := { libc with pathConstraints := [], cerr := [] }
    printed := s.printed ++ libc.cerr.map fun line ↦ (.cerr, line) }

/-- A call of a wrapper. -/
def callLibc (backend : ExprBuilder → Backend SymExpr) (cfg : QsymConfig) (env : Environment)
    (call : LibcCall) (s : State SymExpr) : State SymExpr :=
  -- without an expression builder the choice makes no difference, as nothing can be built
  let libc := @LibcState.call _ (backend (s.exprBuilder.getD .symbolic)) cfg.toConfig s.libc call
  if s.exprBuilder.isNone && buildsExpression s.libc libc call then s.crash
  else libc.pathConstraints.foldl (pushFromWrapper cfg env) (s.setLibc libc)

end State

/-- The calls of a program. -/
inductive Call (SymExpr : Type)
  | libc (call : LibcCall)
  /-- one or several builders -/
  | build (result : Backend SymExpr → SymExpr)
  | symSetParameterExpression (index : UInt8) (expr : Option SymExpr)
  | symSetReturnExpression (expr : Option SymExpr)
  | symccCovCb (cbId : UInt32)
  | symPushPathConstraint (constraint : Option SymExpr) (taken : BitVec 32) (siteId : UIntPtr)

variable {SymExpr : Type}

/-- A call in a program that is running, and the expression that it returns. -/
def State.call (backend : ExprBuilder → Backend SymExpr) (cfg : QsymConfig) (env : Environment)
    (s : State SymExpr) : Call SymExpr → State SymExpr × Option SymExpr
  | .libc call => (s.callLibc backend cfg env call, none)
  | .build result =>
    match s.exprBuilder with
    | none => (s.crash, none)
    | some builder => (s, some (result (backend builder)))
  | .symSetParameterExpression index expr =>
    ({ s with
      libc := { s.libc with slots := s.libc.slots.symSetParameterExpression index expr } }, none)
  | .symSetReturnExpression expr => ({ s with libc := s.libc.setReturn expr }, none)
  | .symccCovCb cbId => (s.symccCovCb cbId, none)
  | .symPushPathConstraint constraint taken siteId =>
    (s.symPushPathConstraint cfg env constraint taken siteId, none)

/-- Nothing happens after the program has ended. -/
def step (backend : ExprBuilder → Backend SymExpr) (cfg : QsymConfig) (env : Environment)
    (s : State SymExpr) (call : Call SymExpr) : State SymExpr × Option SymExpr :=
  if s.status = .running then s.call backend cfg env call else (s, none)

/-- A whole run, and the expressions that the calls return. -/
def runProgram (backend : ExprBuilder → Backend SymExpr) (cfg : QsymConfig) (env : Environment)
    (calls : List (Call SymExpr)) : State SymExpr × List (Option SymExpr) :=
  let (s, results) :=
    Machine.run (step backend cfg env) ((State.init env).symInitialize cfg env) calls
  (s.dtorRuntime cfg, results)

/-! ## A run that prints and a silent run -/

/-- `SYMCC_SILENT` makes a difference only to what a wrapper prints. -/
theorem call_withSilent [Backend SymExpr] (cfg : QsymConfig) (silent silent' : Bool)
    (s : LibcState SymExpr) (call : LibcCall) :
    ∃ cerr, s.call (cfg.withSilent silent').toConfig call
      = { s.call (cfg.withSilent silent).toConfig call with cerr } := by
  have hremember (path : CString) (fd : Int32) (u : LibcState SymExpr) :
      ∃ cerr, u.rememberInputFile (cfg.withSilent silent').toConfig path fd
        = { u.rememberInputFile (cfg.withSilent silent).toConfig path fd with cerr } := by
    have hnames (b : Bool) : LibcState.namesInputFile (cfg.withSilent b).toConfig path
        = LibcState.namesInputFile cfg.toConfig path := rfl
    unfold LibcState.rememberInputFile
    rw [hnames, hnames]
    split
    · split
      · cases silent <;> cases silent' <;> exact ⟨_, rfl⟩
      · exact ⟨_, rfl⟩
    · exact ⟨_, rfl⟩
  have hopen (path : CString) (result : Option Int32) (u : LibcState SymExpr) :
      ∃ cerr, u.openSymbolized (cfg.withSilent silent').toConfig path result
        = { u.openSymbolized (cfg.withSilent silent).toConfig path result with cerr } := by
    cases result with
    | none => exact ⟨_, rfl⟩
    | some fd => exact hremember path fd _
  cases call with
  | openFile path result => exact hopen path result s
  | fopen pathname result => exact hopen pathname result s
  | fopen64 pathname result => exact hopen pathname result s
  | _ => exact ⟨_, rfl⟩

/-- The states agree in everything but what has been printed. -/
def Same (s t : State SymExpr) : Prop := ∃ printed, t = { s with printed }

/-- The two runs agree on every result and in their last states. -/
def Agree (a b : State SymExpr × List (Option SymExpr)) : Prop := a.2 = b.2 ∧ Same a.1 b.1

namespace Same

variable {s t u : State SymExpr}

theorem refl (s : State SymExpr) : Same s s := ⟨s.printed, rfl⟩

theorem trans (h : Same s t) (h' : Same t u) : Same s u := by
  obtain ⟨printed, rfl⟩ := h
  obtain ⟨printed', rfl⟩ := h'
  exact ⟨printed', rfl⟩

theorem symm (h : Same s t) : Same t s := by
  obtain ⟨printed, rfl⟩ := h
  exact ⟨s.printed, rfl⟩

/-- A function that does not read what has been printed. -/
theorem apply_eq (h : Same s t) {α : Type} (f : State SymExpr → α)
    (hf : ∀ u printed, f { u with printed } = f u) : f t = f s := by
  obtain ⟨printed, rfl⟩ := h
  exact hf s printed

/-- An update that neither reads nor writes what has been printed. -/
theorem update (h : Same s t) (f : State SymExpr → State SymExpr)
    (hf : ∀ u printed, f { u with printed } = { f u with printed }) : Same (f s) (f t) := by
  obtain ⟨printed, rfl⟩ := h
  exact ⟨printed, hf s printed⟩

theorem status_eq (h : Same s t) : t.status = s.status := h.apply_eq _ fun _ _ ↦ rfl

private theorem exprBuilder_eq (h : Same s t) : t.exprBuilder = s.exprBuilder :=
  h.apply_eq _ fun _ _ ↦ rfl

/-! ### Printing -/

theorem print (h : Same s t) (stream : OutputStream) (line : String) :
    Same (s.print stream line) (t.print stream line) := by
  obtain ⟨printed, rfl⟩ := h
  exact ⟨_, rfl⟩

theorem diagnose_right (h : Same s t) (cfg : QsymConfig) (stream : OutputStream) (line : String) :
    Same s (t.diagnose cfg stream line) := by
  obtain ⟨printed, rfl⟩ := h
  unfold State.diagnose
  split
  · exact ⟨_, rfl⟩
  · exact ⟨_, rfl⟩

theorem diagnose (h : Same s t) (cfg cfg' : QsymConfig) (stream : OutputStream) (line : String) :
    Same (s.diagnose cfg stream line) (t.diagnose cfg' stream line) :=
  (h.symm.diagnose_right cfg stream line).symm.diagnose_right cfg' stream line

theorem diagnoseAll_right (h : Same s t) (cfg : QsymConfig) (stream : OutputStream)
    (lines : List String) :
    Same s (lines.foldl (fun t line ↦ t.diagnose cfg stream line) t) := by
  induction lines generalizing t with
  | nil => exact h
  | cons line lines ih => exact ih (h.diagnose_right cfg stream line)

/-! ### Initialization and the end -/

theorem exit (h : Same s t) (cfg cfg' : QsymConfig) (code : Int32) :
    Same (s.exit cfg code) (t.exit cfg' code) := by
  unfold State.exit
  rw [h.apply_eq (·.deletesInputFile) fun _ _ ↦ rfl]
  refine update ?_ ({ · with status := .exited code }) fun _ _ ↦ rfl
  split
  · have honce := h.update ({ · with deletesInputFile := false }) fun _ _ ↦ rfl
    exact (honce.diagnose cfg cfg' .cout _).update ({ · with temporary := none }) fun _ _ ↦ rfl
  · exact h

variable (cfg : QsymConfig) (silent silent' : Bool) (env : Environment)

theorem loadInput (h : Same s t) :
    Same (s.loadInput (cfg.withSilent silent) env) (t.loadInput (cfg.withSilent silent') env) := by
  unfold State.loadInput
  by_cases hstdin : cfg.inputFile.isEmpty = true
  · simp only [QsymConfig.inputFile_withSilent, hstdin, ↓reduceIte]
    have hread := (h.diagnose (cfg.withSilent silent) (cfg.withSilent silent') .cerr
      "Reading program input until EOF (use Ctrl+D in a terminal)...").update (·.saveStdin env)
      fun _ _ ↦ rfl
    split
    · exact hread.update ({ · with standardInput := .reopened env.tmpnam }) fun _ _ ↦ rfl
    · have hclosed := hread.update ({ · with standardInput := .closed }) fun _ _ ↦ rfl
      exact (hclosed.print .cerr "Failed to reopen stdin").exit _ _ (-1)
  · simp only [QsymConfig.inputFile_withSilent, hstdin, Bool.false_eq_true, ↓reduceIte]
    have hname := h.update ({ · with inputFileName := cfg.inputFile }) fun _ _ ↦ rfl
    exact hname.diagnose (cfg.withSilent silent) (cfg.withSilent silent') .cerr _

theorem loadInputAndCreateSolver (h : Same s t) :
    Same (s.loadInputAndCreateSolver (cfg.withSilent silent) env)
      (t.loadInputAndCreateSolver (cfg.withSilent silent') env) := by
  have hinput := h.loadInput cfg silent silent' env
  unfold State.loadInputAndCreateSolver
  dsimp only
  rw [hinput.status_eq]
  split
  · exact hinput.update (·.createSolver cfg) fun _ _ ↦ rfl
  · exact hinput

/-- Initialization is the same unless there is no symbolic input. -/
theorem symInitialize (h : Same s t) (hconcrete : cfg.fullyConcrete = false) :
    Same (s.symInitialize (cfg.withSilent false) env)
      (t.symInitialize (cfg.withSilent true) env) := by
  unfold State.symInitialize
  rw [h.apply_eq (·.initialized) fun _ _ ↦ rfl]
  split
  · exact h
  · simp only [QsymConfig.silent_withSilent, QsymConfig.fullyConcrete_withSilent, hconcrete,
      reduceCtorEq, Bool.false_eq_true, ↓reduceIte]
    have hwrappers := h.update (·.initLibcWrappers cfg) fun _ _ ↦ rfl
    have hprint : Same ((s.initLibcWrappers cfg).print .cerr
        "This is SymCC running with the QSYM backend") (t.initLibcWrappers cfg) :=
      trans ⟨_, rfl⟩ hwrappers
    exact hprint.loadInputAndCreateSolver cfg false true env

theorem writeHistory (h : Same s t) (cfg cfg' : QsymConfig) :
    Same (s.writeHistory cfg) (t.writeHistory cfg') := by
  have hdone := h.update ({ · with dtorDone := true }) fun _ _ ↦ rfl
  have hinside := (hdone.diagnose cfg cfg' .cerr
    "Inside of dtor, going through all counters").diagnose cfg cfg' .cerr
      "Preparing to write corpus counter"
  exact (hinside.update (·.writeFiles) fun _ _ ↦ rfl).diagnose cfg cfg' .cerr _

theorem dtorRuntime (h : Same s t) :
    Same (s.dtorRuntime (cfg.withSilent silent)) (t.dtorRuntime (cfg.withSilent silent')) := by
  unfold State.dtorRuntime
  rw [h.status_eq, h.apply_eq (·.dtorDone) fun _ _ ↦ rfl, cfg.isPureConcolic_withSilent silent,
    cfg.isPureConcolic_withSilent silent']
  split
  · exact h
  · split
    · split
      · exact h
      · exact (h.writeHistory _ _).exit _ _ 0
    · exact h.exit _ _ 0

/-! ### Calls -/

theorem pureConcolicShouldSave (h : Same s t) (cfg cfg' : QsymConfig) (taken : BitVec 32)
    (siteId : UIntPtr) :
    Same (s.pureConcolicShouldSave cfg env taken siteId).1
        (t.pureConcolicShouldSave cfg' env taken siteId).1 ∧
      (t.pureConcolicShouldSave cfg' env taken siteId).2
        = (s.pureConcolicShouldSave cfg env taken siteId).2 := by
  obtain ⟨printed, rfl⟩ := h
  refine ⟨diagnoseAll_right (symm (diagnoseAll_right ?_ cfg .cerr _)) cfg' .cerr _, rfl⟩
  exact ⟨s.printed, rfl⟩

theorem addJcc (h : Same s t) (constraint : SymExpr) (taken : BitVec 32) (siteId : UIntPtr)
    (shouldSave : Bool) :
    Same (s.addJcc constraint taken siteId shouldSave)
      (t.addJcc constraint taken siteId shouldSave) := by
  refine h.update (·.addJcc constraint taken siteId shouldSave) fun u printed ↦ ?_
  unfold State.addJcc
  dsimp only
  split
  · rfl
  · rfl

theorem checkAndSave (h : Same s t) : Same s.checkAndSave t.checkAndSave := by
  refine h.update (·.checkAndSave) fun u printed ↦ ?_
  unfold State.checkAndSave
  dsimp only
  split
  · rfl
  · rfl

theorem symPushPathConstraint (h : Same s t) (constraint : Option SymExpr) (taken : BitVec 32)
    (siteId : UIntPtr) :
    Same (s.symPushPathConstraint (cfg.withSilent silent) env constraint taken siteId)
      (t.symPushPathConstraint (cfg.withSilent silent') env constraint taken siteId) := by
  cases constraint with
  | none => exact h
  | some constraint =>
    unfold State.symPushPathConstraint
    rw [cfg.isPureConcolic_withSilent silent, cfg.isPureConcolic_withSilent silent']
    cases cfg.isPureConcolic with
    | false => exact h.addJcc constraint taken siteId true
    | true =>
      obtain ⟨hstate, hdecision⟩ := h.pureConcolicShouldSave env (cfg.withSilent silent)
        (cfg.withSilent silent') taken siteId
      dsimp only
      rw [if_pos rfl, if_pos rfl, hdecision]
      exact hstate.addJcc constraint taken siteId _

theorem symccCovCb (h : Same s t) (cbId : UInt32) :
    Same (s.symccCovCb cbId) (t.symccCovCb cbId) := by
  have hprocess := h.update
    (fun s ↦ { s with process := (PureConcolic.symccCovCb s.process cbId).1 })
    fun _ _ ↦ rfl
  unfold State.symccCovCb
  dsimp only
  rw [h.apply_eq (·.process) fun _ _ ↦ rfl] at hprocess ⊢
  split
  · exact hprocess.checkAndSave
  · exact hprocess

theorem pushFromWrapper (h : Same s t) (c : PathConstraint SymExpr) :
    Same (State.pushFromWrapper (cfg.withSilent silent) env s c)
      (State.pushFromWrapper (cfg.withSilent silent') env t c) := by
  unfold State.pushFromWrapper
  rw [h.status_eq]
  split
  · exact h.symPushPathConstraint cfg silent silent' env _ _ _
  · exact h

private theorem pushAll (h : Same s t) (constraints : List (PathConstraint SymExpr)) :
    Same (constraints.foldl (State.pushFromWrapper (cfg.withSilent silent) env) s)
      (constraints.foldl (State.pushFromWrapper (cfg.withSilent silent') env) t) := by
  induction constraints generalizing s t with
  | nil => exact h
  | cons c constraints ih => exact ih (h.pushFromWrapper cfg silent silent' env c)

theorem callLibc (h : Same s t) (backend : ExprBuilder → Backend SymExpr) (call : LibcCall) :
    Same (s.callLibc backend (cfg.withSilent silent) env call)
      (t.callLibc backend (cfg.withSilent silent') env call) := by
  obtain ⟨cerr, hcall⟩ := @call_withSilent _ (backend (s.exprBuilder.getD .symbolic)) cfg silent
    silent' s.libc call
  have hbuilds (libc libc' : LibcState SymExpr) :
      State.buildsExpression libc { libc' with cerr } call
        = State.buildsExpression libc libc' call := by
    cases call <;> rfl
  unfold State.callLibc
  rw [h.exprBuilder_eq, h.apply_eq (·.libc) fun _ _ ↦ rfl, hcall]
  dsimp only
  rw [hbuilds]
  split
  · exact h.update (·.crash) fun _ _ ↦ rfl
  · refine pushAll cfg silent silent' env ?_ _
    obtain ⟨printed, rfl⟩ := h
    exact ⟨_, rfl⟩

theorem call (h : Same s t) (backend : ExprBuilder → Backend SymExpr) (call : Call SymExpr) :
    Same (s.call backend (cfg.withSilent silent) env call).1
        (t.call backend (cfg.withSilent silent') env call).1 ∧
      (s.call backend (cfg.withSilent silent) env call).2
        = (t.call backend (cfg.withSilent silent') env call).2 := by
  cases call with
  | libc call => exact ⟨h.callLibc cfg silent silent' env backend call, rfl⟩
  | build result =>
    rw [State.call, State.call, h.exprBuilder_eq]
    cases s.exprBuilder with
    | none => exact ⟨h.update (·.crash) fun _ _ ↦ rfl, rfl⟩
    | some builder => exact ⟨h, rfl⟩
  | symSetParameterExpression index expr =>
    exact ⟨h.update (fun s ↦ { s with
      libc := { s.libc with slots := s.libc.slots.symSetParameterExpression index expr } })
      fun _ _ ↦ rfl, rfl⟩
  | symSetReturnExpression expr =>
    exact ⟨h.update (fun s ↦ { s with libc := s.libc.setReturn expr }) fun _ _ ↦ rfl, rfl⟩
  | symccCovCb cbId => exact ⟨h.symccCovCb cbId, rfl⟩
  | symPushPathConstraint constraint taken siteId =>
    exact ⟨h.symPushPathConstraint cfg silent silent' env constraint taken siteId, rfl⟩

theorem step (h : Same s t) (backend : ExprBuilder → Backend SymExpr) (call : Call SymExpr) :
    Same (step backend (cfg.withSilent silent) env s call).1
        (step backend (cfg.withSilent silent') env t call).1 ∧
      (step backend (cfg.withSilent silent) env s call).2
        = (step backend (cfg.withSilent silent') env t call).2 := by
  unfold QsymRuntime.step
  rw [h.status_eq]
  split
  · exact h.call cfg silent silent' env backend call
  · exact ⟨h, rfl⟩

end Same

/-- With symbolic input the two runs agree. -/
theorem agree_of_symbolic (backend : ExprBuilder → Backend SymExpr) {cfg : QsymConfig}
    (hconcrete : cfg.fullyConcrete = false) (env : Environment) (calls : List (Call SymExpr)) :
    Agree (runProgram backend (cfg.withSilent false) env calls)
      (runProgram backend (cfg.withSilent true) env calls) := by
  have hstart := (Same.refl (State.init env : State SymExpr)).symInitialize cfg env hconcrete
  obtain ⟨hlast, hresults⟩ := Machine.run_related (Q := Eq)
    (fun _ _ call h ↦ h.step cfg false true env backend call) hstart calls
  exact ⟨List.forall₂_eq_eq_eq ▸ hresults, hlast.dtorRuntime cfg false true⟩

/-! ## What only initialization does -/

/-- Neither has a solver been created nor has anything happened to standard input. -/
structure Untouched (s t : State SymExpr) : Prop where
  solver_eq : t.solver = s.solver
  standardInput_eq : t.standardInput = s.standardInput

theorem Untouched.refl (s : State SymExpr) : Untouched s s := ⟨rfl, rfl⟩

theorem Untouched.trans {s t u : State SymExpr} (h : Untouched s t) (h' : Untouched t u) :
    Untouched s u :=
  ⟨h'.solver_eq.trans h.solver_eq, h'.standardInput_eq.trans h.standardInput_eq⟩

theorem Same.untouched {s t : State SymExpr} (h : Same s t) : Untouched s t :=
  ⟨h.apply_eq _ fun _ _ ↦ rfl, h.apply_eq _ fun _ _ ↦ rfl⟩

namespace State

variable (cfg : QsymConfig) (env : Environment) (s : State SymExpr)

theorem untouched_diagnose (stream : OutputStream) (line : String) :
    Untouched s (s.diagnose cfg stream line) :=
  ((Same.refl s).diagnose_right cfg stream line).untouched

theorem untouched_exit (code : Int32) : Untouched s (s.exit cfg code) := by
  unfold exit
  cases s.deletesInputFile with
  | false => exact ⟨rfl, rfl⟩
  | true =>
    obtain ⟨hsolver, hstdin⟩ :=
      untouched_diagnose cfg { s with deletesInputFile := false } .cout " in delete input file"
    exact ⟨hsolver, hstdin⟩

private theorem untouched_dtorRuntime : Untouched s (s.dtorRuntime cfg) := by
  have hwrite : Untouched s (s.writeHistory cfg) := by
    have hdone : Untouched s { s with dtorDone := true } := ⟨rfl, rfl⟩
    have hinside := (hdone.trans (untouched_diagnose cfg _ .cerr
      "Inside of dtor, going through all counters")).trans (untouched_diagnose cfg _ .cerr
        "Preparing to write corpus counter")
    have hwritten (u : State SymExpr) : Untouched u u.writeFiles := ⟨rfl, rfl⟩
    exact (hinside.trans (hwritten _)).trans (untouched_diagnose cfg _ .cerr _)
  unfold dtorRuntime
  split_ifs
  · exact .refl s
  · exact .refl s
  · exact hwrite.trans (untouched_exit cfg _ 0)
  · exact untouched_exit cfg s 0

private theorem untouched_addJcc (constraint : SymExpr) (taken : BitVec 32) (siteId : UIntPtr)
    (shouldSave : Bool) : Untouched s (s.addJcc constraint taken siteId shouldSave) := by
  unfold addJcc
  split
  · exact ⟨rfl, rfl⟩
  · exact ⟨rfl, rfl⟩

private theorem untouched_symPushPathConstraint (constraint : Option SymExpr) (taken : BitVec 32)
    (siteId : UIntPtr) : Untouched s (s.symPushPathConstraint cfg env constraint taken siteId) := by
  cases constraint with
  | none => exact .refl s
  | some constraint =>
    unfold symPushPathConstraint
    cases cfg.isPureConcolic with
    | false => exact untouched_addJcc s constraint taken siteId true
    | true =>
      have hprocess : Untouched s (s.pureConcolicShouldSave cfg env taken siteId).1 := by
        have hdecision : Untouched s { s with process := (PureConcolic.pureConcolicShouldSave
          env.longBits s.files s.process taken siteId).1 } := ⟨rfl, rfl⟩
        exact hdecision.trans (Same.diagnoseAll_right (.refl _) cfg .cerr _).untouched
      exact hprocess.trans (untouched_addJcc _ constraint taken siteId _)

private theorem untouched_symccCovCb (cbId : UInt32) : Untouched s (s.symccCovCb cbId) := by
  unfold symccCovCb checkAndSave
  dsimp only
  split
  · split
    · exact ⟨rfl, rfl⟩
    · exact ⟨rfl, rfl⟩
  · exact ⟨rfl, rfl⟩

private theorem untouched_pushAll (constraints : List (PathConstraint SymExpr)) :
    Untouched s (constraints.foldl (pushFromWrapper cfg env) s) := by
  induction constraints generalizing s with
  | nil => exact .refl s
  | cons c constraints ih =>
    have hpush : Untouched s (pushFromWrapper cfg env s c) := by
      unfold pushFromWrapper
      split
      · exact untouched_symPushPathConstraint cfg env s _ _ _
      · exact .refl s
    exact hpush.trans (ih _)

private theorem untouched_call (backend : ExprBuilder → Backend SymExpr) (call : Call SymExpr) :
    Untouched s (s.call backend cfg env call).1 := by
  cases call with
  | libc call =>
    rw [State.call, callLibc]
    dsimp only
    split
    · exact ⟨rfl, rfl⟩
    · have hlibc (libc : LibcState SymExpr) : Untouched s (s.setLibc libc) := ⟨rfl, rfl⟩
      exact (hlibc _).trans (untouched_pushAll cfg env _ _)
  | build result =>
    rw [State.call]
    split
    · exact ⟨rfl, rfl⟩
    · exact .refl s
  | symSetParameterExpression index expr => exact ⟨rfl, rfl⟩
  | symSetReturnExpression expr => exact ⟨rfl, rfl⟩
  | symccCovCb cbId => exact untouched_symccCovCb s cbId
  | symPushPathConstraint constraint taken siteId =>
    exact untouched_symPushPathConstraint cfg env s constraint taken siteId

/-- Once it has got past the first messages, initialization closes standard input, to reopen it if
it can, or creates a solver. -/
theorem touched_loadInputAndCreateSolver (hs : s.status = .running) :
    (s.loadInputAndCreateSolver cfg env).standardInput ≠ .original ∨
      (s.loadInputAndCreateSolver cfg env).solver ≠ none := by
  unfold loadInputAndCreateSolver
  dsimp only
  by_cases hstdin : cfg.inputFile.isEmpty = true
  · have hload : (s.loadInput cfg env).standardInput ≠ .original := by
      rw [loadInput, if_pos hstdin]
      dsimp only
      split
      · exact StandardInput.noConfusion
      · rw [(untouched_exit cfg _ (-1)).standardInput_eq]
        exact StandardInput.noConfusion
    left
    split
    · rwa [createSolver]
    · exact hload
  · have hload : (s.loadInput cfg env).status = .running := by
      rw [loadInput, if_neg hstdin]
      dsimp only
      exact ((Same.refl _).diagnose_right cfg .cerr _).status_eq.trans hs
    right
    rw [if_pos hload]
    exact Option.some_ne_none _

end State

/-- A whole run leaves the solver and standard input as initialization has left them. -/
theorem untouched_runProgram (backend : ExprBuilder → Backend SymExpr) (cfg : QsymConfig)
    (env : Environment) (calls : List (Call SymExpr)) :
    Untouched ((State.init env).symInitialize cfg env) (runProgram backend cfg env calls).1 := by
  have hstep (s : State SymExpr) (call : Call SymExpr) :
      Untouched s (step backend cfg env s call).1 := by
    unfold step
    split
    · exact State.untouched_call cfg env s backend call
    · exact .refl s
  obtain ⟨hcalls, -⟩ := Machine.run_keeps (P := fun _ _ ↦ True) (Q := fun _ ↦ True)
    (I := Untouched ((State.init env).symInitialize cfg env))
    (fun s call hs _ ↦ ⟨hs.trans (hstep s call), trivial⟩) (.refl _)
    (.of_forall _ fun _ _ ↦ trivial)
  exact hcalls.trans (State.untouched_dtorRuntime cfg _)

/-- Without symbolic input a run that prints creates nothing, but a silent run does. -/
theorem not_agree_of_fullyConcrete (backend : ExprBuilder → Backend SymExpr) {cfg : QsymConfig}
    (hconcrete : cfg.fullyConcrete = true) (env : Environment) (calls : List (Call SymExpr)) :
    ¬ Agree (runProgram backend (cfg.withSilent false) env calls)
      (runProgram backend (cfg.withSilent true) env calls) := by
  rintro ⟨-, hsame⟩
  have hprints := untouched_runProgram backend (cfg.withSilent false) env calls
  have hsilent := untouched_runProgram backend (cfg.withSilent true) env calls
  have hstart : Untouched (State.init env)
      ((State.init env : State SymExpr).symInitialize (cfg.withSilent false) env) := by
    unfold State.symInitialize
    simp only [QsymConfig.silent_withSilent, QsymConfig.fullyConcrete_withSilent, hconcrete,
      ↓reduceIte]
    exact ⟨rfl, rfl⟩
  obtain ⟨hsolver, hstdin⟩ := (hstart.trans hprints).trans hsame.untouched
  rcases State.touched_loadInputAndCreateSolver (cfg.withSilent true) env
    ((State.init env : State SymExpr).initLibcWrappers (cfg.withSilent true)) rfl with h | h
  · exact h (hsilent.standardInput_eq.symm.trans hstdin)
  · exact h (hsilent.solver_eq.symm.trans hsolver)

/-- A run that prints and a silent run do the same, whatever the program calls, exactly if the
execution is not fully concrete. -/
theorem agree_iff (backend : ExprBuilder → Backend SymExpr) (cfg : QsymConfig) (env : Environment)
    (calls : List (Call SymExpr)) :
    Agree (runProgram backend (cfg.withSilent false) env calls)
        (runProgram backend (cfg.withSilent true) env calls) ↔
      cfg.fullyConcrete = false := by
  constructor
  · intro h
    by_contra hconcrete
    exact not_agree_of_fullyConcrete backend (Bool.not_eq_false _ ▸ hconcrete) env calls h
  · exact fun hconcrete ↦ agree_of_symbolic backend hconcrete env calls

/-- Without symbolic input and with the input file `a`, a silent run creates a solver. -/
theorem not_agree :
    ¬ ∀ (backend : ExprBuilder → Backend Z3Ast) (cfg : QsymConfig) (env : Environment)
        (calls : List (Call Z3Ast)),
      Agree (runProgram backend (cfg.withSilent false) env calls)
        (runProgram backend (cfg.withSilent true) env calls) := by
  intro h
  obtain ⟨-, hsame⟩ := h (fun _ ↦ inferInstance) ⟨⟨false, true, [97]⟩, 10, [], false, false, []⟩
    ⟨[], [], true, .empty, 64, fun _ ↦ 0⟩ []
  have hsolver : some _ = none := hsame.apply_eq (·.solver) fun _ _ ↦ rfl
  cases hsolver

end QsymRuntime

end Adacc
