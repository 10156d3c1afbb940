import Adacc.Foundation.TextFile

/-!
# Loading the configuration

`Config.cpp`, `Config.h`: `loadConfig` fills the configuration from the environment. `Config.h`
promises `std::runtime_error` for a value that cannot be interpreted.

Flags keep the promise. Numbers are read by `std::stoul`, which has exceptions of its own, skips
white space, negates modulo the size of the type and ignores what follows the digits. The threshold
of the garbage collector has both exceptions translated, the solver timeout one of them only, so a
timeout that is too large ends in `std::out_of_range`. And nothing looks at the rest of the text or
at the factor of 1000 by which the timeout becomes milliseconds, as an `int`.

`contract_iff` says for which environments all is well. `SYMCC_SILENT` is a flag by its presence
only, here as in the compiler; its value is not interpreted.
-/

namespace Adacc

namespace Configuration

/-! ## The configuration -/

/-- The sizes of `size_t`, which are those of `unsigned long`. -/
inductive Build
  | bits32
  | bits64

def Build.bits : Build → ℕ
  | bits32 => 32
  | bits64 => 64

/-- `Config` -/
structure Config (build : Build) where
  silent : Bool := false
  fullyConcrete : Bool := false
  solverTimeout : BitVec build.bits := 10
  outputDir : List Char := "/tmp/output".toList
  inputFile : List Char := []
  exploredPathsFile : List Char := []
  pathModelsFiles : List Char := []
  legitFilesDir : List Char := []
  logFile : List Char := []
  pruning : Bool := false
  isPureConcolic : Bool := false
  aflCoverageMap : List Char := []
  garbageCollectionThreshold : BitVec build.bits := 5000000

/-- The exceptions that can leave `loadConfig`. -/
inductive StdException
  | invalidArgument
  | outOfRange
  | runtimeError (what : List Char)

/-- `getenv` -/
abbrev Environment := String → Option (List Char)

/-- `checkFlagString` -/
def checkFlagString (value : List Char) : Except StdException Bool :=
  let value := value.map Char.toLower
  if value = "1".toList ∨ value = "on".toList ∨ value = "yes".toList then .ok true
  else if value = [] ∨ value = "0".toList ∨ value = "off".toList ∨ value = "no".toList then
    .ok false
  else .error (.runtimeError ("Unknown flag value ".toList ++ value))

variable {build : Build}

/-- The value of `SYMCC_SOLVER_TIMEOUT`. -/
def readSolverTimeout (value : List Char) : Except StdException (BitVec build.bits) :=
  match TextFile.stoul build.bits value with
  | .ok n => .ok n
  | .error .invalidArgument =>
    .error (.runtimeError "Cant set solver timeout to a non integer\n".toList)
  | .error .outOfRange => .error .outOfRange

/-- The value of `SYMCC_GC_THRESHOLD`. -/
def readGarbageCollectionThreshold (value : List Char) :
    Except StdException (BitVec build.bits) :=
  match TextFile.stoul build.bits value with
  | .ok n => .ok n
  | .error .invalidArgument =>
    .error (.runtimeError ("Can't convert ".toList ++ value ++ " to an integer".toList))
  | .error .outOfRange =>
    .error (.runtimeError ("The GC threshold must be between 0 and ".toList ++
      TextFile.decimal (2 ^ build.bits - 1)))

/-- `if (value != nullptr) field = read(value)` -/
def ifSet {α : Type} (value : Option (List Char)) (read : List Char → Except StdException α)
    (set : α → Config build) (config : Config build) : Except StdException (Config build) :=
  match value with
  | none => .ok config
  | some value => (read value).map set

/-- `loadConfig` -/
def loadConfig (build : Build) (env : Environment) : Except StdException (Config build) := do
  let config : Config build := {}
  let config ← ifSet (env "SYMCC_NO_SYMBOLIC_INPUT") checkFlagString
    (fun fullyConcrete ↦ { config with fullyConcrete }) config
  let config ← ifSet (env "SYMCC_SILENT") .ok (fun _ ↦ { config with silent := true }) config
  let config ← ifSet (env "SYMCC_SOLVER_TIMEOUT") readSolverTimeout
    (fun solverTimeout ↦ { config with solverTimeout }) config
  let config ← ifSet (env "SYMCC_OUTPUT_DIR") .ok
    (fun outputDir ↦ { config with outputDir }) config
  let config ← ifSet (env "SYMCC_INPUT_FILE") .ok
    (fun inputFile ↦ { config with inputFile }) config
  let config ← ifSet (env "SYMCC_EXPLORED_PATHS") .ok
    (fun exploredPathsFile ↦ { config with exploredPathsFile }) config
  let config ← ifSet (env "SYMCC_PURE_CONCOLIC") checkFlagString
    (fun isPureConcolic ↦ { config with isPureConcolic }) config
  let config ← ifSet (env "SYMCC_LEGIT_FILES") .ok
    (fun legitFilesDir ↦ { config with legitFilesDir }) config
  let config ← ifSet (env "SYMCC_PATH_MODELS") .ok
    (fun pathModelsFiles ↦ { config with pathModelsFiles }) config
  let config ← ifSet (env "SYMCC_LOG_FILE") .ok
    (fun logFile ↦ { config with logFile }) config
  let config ← ifSet (env "SYMCC_ENABLE_LINEARIZATION") checkFlagString
    (fun pruning ↦ { config with pruning }) config
  let config ← ifSet (env "SYMCC_AFL_COVERAGE_MAP") .ok
    (fun aflCoverageMap ↦ { config with aflCoverageMap }) config
  ifSet (env "SYMCC_GC_THRESHOLD") readGarbageCollectionThreshold
    (fun garbageCollectionThreshold ↦ { config with garbageCollectionThreshold }) config

/-- `(int)(g_config.solverTimeout * 1000)`, which is handed to the solver. -/
def Config.solverTimeoutMs (config : Config build) : ℤ :=
  ((config.solverTimeout * 1000).setWidth 32).toInt

/-! ## What the variables say -/

/-- The value that is read, or a default. -/
def field {α : Type} (value : Option (List Char)) (read : List Char → Except StdException α)
    (d : α) : Except StdException α :=
  match value with
  | none => .ok d
  | some value => read value

/-- A field is what is read or what it was before. -/
theorem ifSet_eq {α : Type} {value : Option (List Char)}
    {read : List Char → Except StdException α} {set : α → Config build} {config : Config build}
    {d : α} (h : set d = config) : ifSet value read set config = (field value read d).map set := by
  cases value with
  | none => exact congrArg Except.ok h.symm
  | some v => rfl

theorem ifSet_bind {α β : Type} {value : Option (List Char)}
    {read : List Char → Except StdException α} {set : α → Config build} {config : Config build}
    {d : α} (h : set d = config) (next : Config build → Except StdException β) :
    ifSet value read set config >>= next = field value read d >>= fun a ↦ next (set a) := by
  rw [ifSet_eq h]
  cases field value read d <;> rfl

/-- A text is taken as it is. -/
theorem ifSet_ok_bind {β : Type} {value : Option (List Char)} {set : List Char → Config build}
    {config : Config build} {d : List Char} (h : set d = config)
    (next : Config build → Except StdException β) :
    ifSet value .ok set config >>= next = next (set (value.getD d)) := by
  rw [ifSet_bind h]
  cases value <;> rfl

private theorem ifSet_silent_bind {β : Type} (value : Option (List Char)) {config : Config build}
    (h : config.silent = false) (next : Config build → Except StdException β) :
    ifSet value .ok (fun _ ↦ { config with silent := true }) config >>= next
      = next { config with silent := value.isSome } := by
  cases value with
  | none => exact congrArg next (by rw [Option.isSome_none, ← h])
  | some v => rfl

/-- What is loaded: flags and numbers are read one after the other, and what is not set has its
default. -/
theorem loadConfig_eq (build : Build) (env : Environment) : loadConfig build env = do
    let fullyConcrete ← field (env "SYMCC_NO_SYMBOLIC_INPUT") checkFlagString false
    let solverTimeout ← field (env "SYMCC_SOLVER_TIMEOUT") readSolverTimeout 10
    let isPureConcolic ← field (env "SYMCC_PURE_CONCOLIC") checkFlagString false
    let pruning ← field (env "SYMCC_ENABLE_LINEARIZATION") checkFlagString false
    let garbageCollectionThreshold ←
      field (env "SYMCC_GC_THRESHOLD") readGarbageCollectionThreshold 5000000
    return {
      silent := (env "SYMCC_SILENT").isSome
      fullyConcrete
      solverTimeout
      outputDir := (env "SYMCC_OUTPUT_DIR").getD "/tmp/output".toList
      inputFile := (env "SYMCC_INPUT_FILE").getD []
      exploredPathsFile := (env "SYMCC_EXPLORED_PATHS").getD []
      pathModelsFiles := (env "SYMCC_PATH_MODELS").getD []
      legitFilesDir := (env "SYMCC_LEGIT_FILES").getD []
      logFile := (env "SYMCC_LOG_FILE").getD []
      pruning
      isPureConcolic
      aflCoverageMap := (env "SYMCC_AFL_COVERAGE_MAP").getD []
      garbageCollectionThreshold } := by
  -- the fields of each record are put in their places before the next variable
  refine (ifSet_bind (d := false) (by rfl) _).trans (bind_congr fun fullyConcrete ↦ ?_)
  dsimp only
  refine (ifSet_silent_bind _ (by rfl) _).trans ?_
  dsimp only
  refine (ifSet_bind (d := 10) (by rfl) _).trans (bind_congr fun solverTimeout ↦ ?_)
  dsimp only
  refine (ifSet_ok_bind (d := "/tmp/output".toList) (by rfl) _).trans ?_
  dsimp only
  refine (ifSet_ok_bind (d := []) (by rfl) _).trans ?_
  dsimp only
  refine (ifSet_ok_bind (d := []) (by rfl) _).trans ?_
  dsimp only
  refine (ifSet_bind (d := false) (by rfl) _).trans (bind_congr fun isPureConcolic ↦ ?_)
  dsimp only
  refine (ifSet_ok_bind (d := []) (by rfl) _).trans ?_
  dsimp only
  refine (ifSet_ok_bind (d := []) (by rfl) _).trans ?_
  dsimp only
  refine (ifSet_ok_bind (d := []) (by rfl) _).trans ?_
  dsimp only
  refine (ifSet_bind (d := false) (by rfl) _).trans (bind_congr fun pruning ↦ ?_)
  dsimp only
  refine (ifSet_ok_bind (d := []) (by rfl) _).trans ?_
  dsimp only
  refine (ifSet_eq (d := 5000000) (by rfl)).trans ?_
  cases field (env "SYMCC_GC_THRESHOLD") readGarbageCollectionThreshold 5000000 <;> rfl

/-! ## The contract -/

/-- The variables that are flags with a value. -/
def flagVariables : List String :=
  ["SYMCC_NO_SYMBOLIC_INPUT", "SYMCC_PURE_CONCOLIC", "SYMCC_ENABLE_LINEARIZATION"]

/-- The variables that are numbers. -/
def numberVariables : List String := ["SYMCC_SOLVER_TIMEOUT", "SYMCC_GC_THRESHOLD"]

/-- What is to be expected of `loadConfig`. -/
structure Contract (build : Build) (env : Environment) : Prop where
  /-- Only `std::runtime_error` is thrown. -/
  runtimeError : ∀ e, loadConfig build env = .error e → ∃ what, e = .runtimeError what
  /-- It returns only if every flag has a value that `checkFlagString` accepts. -/
  flags : ∀ config, loadConfig build env = .ok config →
    ∀ name ∈ flagVariables, ∀ value, env name = some value → ∃ b, checkFlagString value = .ok b
  /-- It returns only if every number is an integer in range. -/
  numbers : ∀ config, loadConfig build env = .ok config →
    ∀ name ∈ numberVariables, ∀ value, env name = some value →
      ∃ n, TextFile.decimalInteger value = some n ∧ 0 ≤ n ∧ n < 2 ^ build.bits
  /-- The solver gets 1000 times the timeout that is given. -/
  timeout : ∀ config, loadConfig build env = .ok config →
    ∀ value n, env "SYMCC_SOLVER_TIMEOUT" = some value → TextFile.decimalInteger value = some n →
      config.solverTimeoutMs = 1000 * n

/-- The texts that a flag can have, in lower case. -/
def flagValues : List (List Char) :=
  ["1".toList, "on".toList, "yes".toList, [], "0".toList, "off".toList, "no".toList]

/-- The flag has another value. -/
def Rejected (value : Option (List Char)) : Prop :=
  ∃ v, value = some v ∧ v.map Char.toLower ∉ flagValues

/-- No digit follows white space and a sign. -/
def NoNumber (value : Option (List Char)) : Prop :=
  ∃ v, value = some v ∧ TextFile.leadingDigits v = []

/-- The digits that follow are a number that is too large. -/
def TooLarge (bits : ℕ) (value : Option (List Char)) : Prop :=
  ∃ v, value = some v ∧ TextFile.leadingDigits v ≠ [] ∧
    2 ^ bits ≤ Nat.ofDigitChars 10 (TextFile.leadingDigits v) 0

/-- The value is an integer between zero and `max`, if there is one. -/
def Within (max : ℤ) (value : Option (List Char)) : Prop :=
  ∀ v, value = some v → ∃ n, TextFile.decimalInteger v = some n ∧ 0 ≤ n ∧ n ≤ max

/-- The environments with a value that is refused as promised: before the solver timeout is read, by
the solver timeout itself, or after a timeout that is not too large. -/
def Refused (build : Build) (env : Environment) : Prop :=
  Rejected (env "SYMCC_NO_SYMBOLIC_INPUT") ∨ NoNumber (env "SYMCC_SOLVER_TIMEOUT") ∨
    ¬ TooLarge build.bits (env "SYMCC_SOLVER_TIMEOUT") ∧
      (Rejected (env "SYMCC_PURE_CONCOLIC") ∨ Rejected (env "SYMCC_ENABLE_LINEARIZATION") ∨
        NoNumber (env "SYMCC_GC_THRESHOLD") ∨ TooLarge build.bits (env "SYMCC_GC_THRESHOLD"))

/-- Both numbers are integers in range, and the timeout is one in milliseconds too. -/
def Interpretable (build : Build) (env : Environment) : Prop :=
  Within 2147483 (env "SYMCC_SOLVER_TIMEOUT") ∧
    Within (2 ^ build.bits - 1) (env "SYMCC_GC_THRESHOLD")

/-! ## Reading the variables -/

section

variable {bits : ℕ} {v : List Char}

private theorem not_rejected_none : ¬ Rejected none := fun ⟨_, hv, _⟩ ↦ nomatch hv

private theorem not_noNumber_none : ¬ NoNumber none := fun ⟨_, hv, _⟩ ↦ nomatch hv

private theorem not_tooLarge_none : ¬ TooLarge bits none := fun ⟨_, hv, _⟩ ↦ nomatch hv

@[simp] theorem rejected_some : Rejected (some v) ↔ v.map Char.toLower ∉ flagValues := by
  simp [Rejected]

@[simp] theorem noNumber_some : NoNumber (some v) ↔ TextFile.leadingDigits v = [] := by
  simp [NoNumber]

@[simp] theorem tooLarge_some : TooLarge bits (some v) ↔ TextFile.leadingDigits v ≠ [] ∧
    2 ^ bits ≤ Nat.ofDigitChars 10 (TextFile.leadingDigits v) 0 := by
  simp [TooLarge]

end

private theorem not_noNumber_of_tooLarge {bits : ℕ} {value : Option (List Char)}
    (h : TooLarge bits value) : ¬ NoNumber value := by
  obtain ⟨v, rfl, hdigits, -⟩ := h
  rwa [noNumber_some]

/-- A flag is rejected with the promised exception or accepted. -/
theorem checkFlagString_cases (value : List Char) :
    (Rejected (some value) ∧ ∃ what, checkFlagString value = .error (.runtimeError what)) ∨
      (¬ Rejected (some value) ∧ ∃ b, checkFlagString value = .ok b) := by
  rw [rejected_some, checkFlagString]
  split
  · next h =>
    refine .inr ⟨not_not_intro ?_, _, rfl⟩
    rcases h with h | h | h <;> simp [h, flagValues]
  · next htrue =>
    split
    · next h =>
      refine .inr ⟨not_not_intro ?_, _, rfl⟩
      rcases h with h | h | h | h <;> simp [h, flagValues]
    · next hfalse =>
      refine .inl ⟨?_, _, rfl⟩
      simp only [flagValues, List.mem_cons, List.not_mem_nil, or_false]
      rintro (h | h | h | h)
      exacts [htrue (.inl h), htrue (.inr (.inl h)), htrue (.inr (.inr h)), hfalse h]

theorem flag_cases (value : Option (List Char)) :
    (Rejected value ∧ ∃ what, field value checkFlagString false = .error (.runtimeError what)) ∨
      (¬ Rejected value ∧ (∀ v, value = some v → ∃ b, checkFlagString v = .ok b) ∧
        ∃ b, field value checkFlagString false = .ok b) := by
  cases value with
  | none =>
    refine .inr ⟨not_rejected_none, ?_, false, rfl⟩
    intro v hv
    cases hv
  | some value =>
    obtain ⟨hrejected, what, h⟩ | ⟨hrejected, b, h⟩ := checkFlagString_cases value
    · exact .inl ⟨hrejected, what, h⟩
    · refine .inr ⟨hrejected, ?_, b, h⟩
      intro v hv
      exact ⟨b, Option.some.inj hv ▸ h⟩

/-- What `std::stoul` does, by what there is to read. -/
theorem stoul_cases (bits : ℕ) (value : List Char) :
    (NoNumber (some value) ∧ TextFile.stoul bits value = .error .invalidArgument) ∨
      (TooLarge bits (some value) ∧ TextFile.stoul bits value = .error .outOfRange) ∨
      (¬ NoNumber (some value) ∧ ¬ TooLarge bits (some value) ∧
        ∃ n, TextFile.stoul bits value = .ok n) := by
  by_cases hdigits : TextFile.leadingDigits value = []
  · exact .inl ⟨noNumber_some.mpr hdigits, if_pos hdigits⟩
  · rw [TextFile.stoul, if_neg hdigits, noNumber_some, tooLarge_some]
    by_cases hlarge : 2 ^ bits ≤ Nat.ofDigitChars 10 (TextFile.leadingDigits value) 0
    · exact .inr (.inl ⟨⟨hdigits, hlarge⟩, if_pos hlarge⟩)
    · rw [if_neg hlarge]
      refine .inr (.inr ⟨hdigits, fun h ↦ hlarge h.2, ?_⟩)
      split
      · exact ⟨_, rfl⟩
      · exact ⟨_, rfl⟩

/-- The timeout is what is written, where that is an integer in range. -/
theorem timeout_cases (build : Build) (value : Option (List Char)) :
    (NoNumber value ∧ ∃ what,
        field value readSolverTimeout (10 : BitVec build.bits) = .error (.runtimeError what)) ∨
      (TooLarge build.bits value ∧
        field value readSolverTimeout (10 : BitVec build.bits) = .error .outOfRange) ∨
      (¬ NoNumber value ∧ ¬ TooLarge build.bits value ∧ ∃ t : BitVec build.bits,
        field value readSolverTimeout 10 = .ok t ∧
          ∀ v n, value = some v → TextFile.decimalInteger v = some n → 0 ≤ n →
            n < 2 ^ build.bits → t = BitVec.ofNat build.bits n.toNat) := by
  cases value with
  | none =>
    refine .inr (.inr ⟨not_noNumber_none, not_tooLarge_none, 10, rfl, ?_⟩)
    intro v n hv
    cases hv
  | some value =>
    obtain ⟨hno, h⟩ | ⟨hlarge, h⟩ | ⟨hno, hlarge, t, h⟩ := stoul_cases build.bits value
    · exact .inl ⟨hno, _, by rw [field, readSolverTimeout, h]⟩
    · exact .inr (.inl ⟨hlarge, by rw [field, readSolverTimeout, h]⟩)
    · refine .inr (.inr ⟨hno, hlarge, t, by rw [field, readSolverTimeout, h], ?_⟩)
      intro v n hv hinteger h0 hn
      rw [← Option.some.inj hv] at hinteger
      rw [TextFile.stoul_of_decimalInteger hinteger h0 hn] at h
      exact (Except.ok.inj h).symm

/-- The threshold has both exceptions translated. -/
theorem threshold_cases (value : Option (List Char)) (d : BitVec build.bits) :
    ((NoNumber value ∨ TooLarge build.bits value) ∧ ∃ what,
        field value readGarbageCollectionThreshold d = .error (.runtimeError what)) ∨
      (¬ (NoNumber value ∨ TooLarge build.bits value) ∧ ∃ t,
        field value readGarbageCollectionThreshold d = .ok t) := by
  cases value with
  | none => exact .inr ⟨not_or.mpr ⟨not_noNumber_none, not_tooLarge_none⟩, d, rfl⟩
  | some value =>
    obtain ⟨hno, h⟩ | ⟨hlarge, h⟩ | ⟨hno, hlarge, t, h⟩ := stoul_cases build.bits value
    · exact .inl ⟨.inl hno, _, by rw [field, readGarbageCollectionThreshold, h]⟩
    · exact .inl ⟨.inr hlarge, _, by rw [field, readGarbageCollectionThreshold, h]⟩
    · exact .inr ⟨not_or.mpr ⟨hno, hlarge⟩, t, by rw [field, readGarbageCollectionThreshold, h]⟩

/-- An integer in range is not too large for `std::stoul`. -/
theorem not_tooLarge_of_within {max : ℤ} {value : Option (List Char)} (hmax : max < 2 ^ build.bits)
    (h : Within max value) : ¬ TooLarge build.bits value := by
  rintro ⟨v, rfl, hdigits, hlarge⟩
  obtain ⟨n, hn, h0, hle⟩ := h v rfl
  have hread := TextFile.stoul_of_decimalInteger hn h0 (hle.trans_lt hmax)
  rw [TextFile.stoul, if_neg hdigits, if_pos hlarge] at hread
  cases hread

/-! ## The timeout in milliseconds -/

/-- The product and the cast keep the value of a timeout exactly if it is at most `2147483`. -/
theorem solverTimeoutMs_eq_iff {config : Config build} {n : ℤ}
    (h : config.solverTimeout = BitVec.ofNat build.bits n.toNat) (h0 : 0 ≤ n)
    (hn : n < 2 ^ build.bits) : config.solverTimeoutMs = 1000 * n ↔ n ≤ 2147483 := by
  lift n to ℕ using h0
  have hn : n < 2 ^ build.bits := by exact_mod_cast hn
  constructor
  · intro hms
    have hlt : config.solverTimeoutMs < 2 ^ (32 - 1) := BitVec.toInt_lt
    omega
  · intro hle
    have hbits : n * 1000 < 2 ^ build.bits := by
      cases build <;> simp only [Build.bits] <;> omega
    have hthousand : 1000 < 2 ^ build.bits := by
      cases build <;> simp only [Build.bits] <;> omega
    have hnat : ((config.solverTimeout * 1000).setWidth 32).toNat = n * 1000 := by
      have hfactor : (1000 : BitVec build.bits).toNat = 1000 :=
        (BitVec.toNat_ofNat _ _).trans (Nat.mod_eq_of_lt hthousand)
      rw [h, Int.toNat_natCast, BitVec.toNat_setWidth, BitVec.toNat_mul, hfactor,
        BitVec.toNat_ofNat, Nat.mod_eq_of_lt hn, Nat.mod_eq_of_lt hbits]
      exact Nat.mod_eq_of_lt (by omega)
    rw [Config.solverTimeoutMs, BitVec.toInt_eq_toNat_of_lt (by rw [hnat]; omega), hnat]
    push_cast
    ring

/-! ## When the contract is kept -/

/-- What loading ends with: the promised exception, another one, or a configuration. -/
theorem loadConfig_cases (build : Build) (env : Environment) :
    (Refused build env ∧ ∃ what, loadConfig build env = .error (.runtimeError what)) ∨
      (¬ Refused build env ∧ TooLarge build.bits (env "SYMCC_SOLVER_TIMEOUT") ∧
        loadConfig build env = .error .outOfRange) ∨
      (¬ Refused build env ∧
        (∀ name ∈ flagVariables, ∀ v, env name = some v → ∃ b, checkFlagString v = .ok b) ∧
        ∃ config, loadConfig build env = .ok config ∧
          ∀ v n, env "SYMCC_SOLVER_TIMEOUT" = some v → TextFile.decimalInteger v = some n →
            0 ≤ n → n < 2 ^ build.bits →
              config.solverTimeout = BitVec.ofNat build.bits n.toNat) := by
  obtain ⟨hr, what, hfield⟩ | ⟨hconcrete, hconcrete', b, hb⟩ :=
    flag_cases (env "SYMCC_NO_SYMBOLIC_INPUT")
  · exact .inl ⟨.inl hr, what, by rw [loadConfig_eq, hfield]; rfl⟩
  obtain ⟨hno, what, hfield⟩ | ⟨hlarge, hfield⟩ | ⟨hno, hlarge, t, ht, hvalue⟩ :=
    timeout_cases build (env "SYMCC_SOLVER_TIMEOUT")
  · exact .inl ⟨.inr (.inl hno), what, by rw [loadConfig_eq, hb, hfield]; rfl⟩
  · refine .inr (.inl ⟨?_, hlarge, by rw [loadConfig_eq, hb, hfield]; rfl⟩)
    rintro (h | h | ⟨h, -⟩)
    · exact hconcrete h
    · exact not_noNumber_of_tooLarge hlarge h
    · exact h hlarge
  obtain ⟨hr, what, hfield⟩ | ⟨hpure, hpure', p, hp⟩ := flag_cases (env "SYMCC_PURE_CONCOLIC")
  · exact .inl ⟨.inr (.inr ⟨hlarge, .inl hr⟩), what, by rw [loadConfig_eq, hb, ht, hfield]; rfl⟩
  obtain ⟨hr, what, hfield⟩ | ⟨hlinear, hlinear', l, hl⟩ :=
    flag_cases (env "SYMCC_ENABLE_LINEARIZATION")
  · exact .inl ⟨.inr (.inr ⟨hlarge, .inr (.inl hr)⟩), what, by
      rw [loadConfig_eq, hb, ht, hp, hfield]; rfl⟩
  obtain ⟨hr, what, hfield⟩ | ⟨hthreshold, g, hg⟩ :=
    threshold_cases (env "SYMCC_GC_THRESHOLD") (5000000 : BitVec build.bits)
  · exact .inl ⟨.inr (.inr ⟨hlarge, .inr (.inr hr)⟩), what, by
      rw [loadConfig_eq, hb, ht, hp, hl, hfield]; rfl⟩
  have hloaded : ∃ config, loadConfig build env = .ok config ∧ config.solverTimeout = t := by
    rw [loadConfig_eq, hb, ht, hp, hl, hg]
    exact ⟨_, rfl, rfl⟩
  obtain ⟨config, hload, hconfig⟩ := hloaded
  refine .inr (.inr ⟨?_, ?_, config, hload, ?_⟩)
  · rintro (h | h | ⟨-, h | h | h⟩)
    exacts [hconcrete h, hno h, hpure h, hlinear h, hthreshold h]
  · simp only [flagVariables, List.forall_mem_cons]
    exact ⟨hconcrete', hpure', hlinear', fun _ h ↦ nomatch h⟩
  · rwa [hconfig]

theorem timeout_bound_lt (build : Build) : (2147483 : ℤ) < 2 ^ build.bits := by
  cases build <;> decide

/-- A configuration that is loaded is as promised exactly if both numbers can be interpreted. -/
theorem contract_iff_interpretable {env : Environment} {config : Config build}
    (hload : loadConfig build env = .ok config)
    (hflags : ∀ name ∈ flagVariables, ∀ v, env name = some v → ∃ b, checkFlagString v = .ok b)
    (hvalue : ∀ v n, env "SYMCC_SOLVER_TIMEOUT" = some v → TextFile.decimalInteger v = some n →
      0 ≤ n → n < 2 ^ build.bits → config.solverTimeout = BitVec.ofNat build.bits n.toNat) :
    Contract build env ↔ Interpretable build env := by
  constructor
  · intro hcontract
    constructor
    · intro v hv
      obtain ⟨n, hn, h0, hlt⟩ := hcontract.numbers config hload _ (by simp [numberVariables]) v hv
      have hms := hcontract.timeout config hload v n hv hn
      have hconfig := hvalue v n hv hn h0 hlt
      exact ⟨n, hn, h0, (solverTimeoutMs_eq_iff hconfig h0 hlt).mp hms⟩
    · intro v hv
      obtain ⟨n, hn, h0, hlt⟩ := hcontract.numbers config hload _ (by simp [numberVariables]) v hv
      exact ⟨n, hn, h0, by omega⟩
  · rintro ⟨htimeout, hthreshold⟩
    refine ⟨?_, fun _ _ ↦ hflags, ?_, ?_⟩
    · intro e he
      cases hload.symm.trans he
    · intro _ _ name hname v hv
      simp only [numberVariables, List.mem_cons, List.not_mem_nil, or_false] at hname
      rcases hname with rfl | rfl
      · obtain ⟨n, hn, h0, hle⟩ := htimeout v hv
        exact ⟨n, hn, h0, hle.trans_lt (timeout_bound_lt build)⟩
      · obtain ⟨n, hn, h0, hle⟩ := hthreshold v hv
        exact ⟨n, hn, h0, by omega⟩
    · intro loaded hloaded v n hv hn
      obtain ⟨m, hm, h0, hle⟩ := htimeout v hv
      obtain rfl : m = n := Option.some.inj (hm.symm.trans hn)
      obtain rfl : config = loaded := Except.ok.inj (hload.symm.trans hloaded)
      have hlt := hle.trans_lt (timeout_bound_lt build)
      have hconfig := hvalue v m hv hn h0 hlt
      exact (solverTimeoutMs_eq_iff hconfig h0 hlt).mpr hle

/-- Only for these environments is the contract kept. -/
theorem contract_iff (build : Build) (env : Environment) :
    Contract build env ↔ Refused build env ∨ Interpretable build env := by
  obtain ⟨hrefused, what, h⟩ | ⟨hrefused, hlarge, h⟩ | ⟨hrefused, hflags, config, h, hvalue⟩ :=
    loadConfig_cases build env
  · refine iff_of_true ⟨?_, ?_, ?_, ?_⟩ (.inl hrefused)
    · intro e he
      exact ⟨what, (Except.error.inj (h.symm.trans he)).symm⟩
    all_goals
      intro _ hok
      cases h.symm.trans hok
  -- the exception is not the promised one
  · refine iff_of_false ?_ ?_
    · intro hcontract
      obtain ⟨_, he⟩ := hcontract.runtimeError _ h
      cases he
    · rintro (hr | ⟨htimeout, -⟩)
      · exact hrefused hr
      · exact not_tooLarge_of_within (timeout_bound_lt build) htimeout hlarge
  · rw [or_iff_right hrefused]
    exact contract_iff_interpretable h hflags hvalue

/-- A timeout of 99999999999999999999 seconds ends in `std::out_of_range`. -/
theorem not_contract_large_timeout :
    ¬ Contract .bits64 fun name ↦
      if name = "SYMCC_SOLVER_TIMEOUT" then some "99999999999999999999".toList else none := by
  intro h
  obtain ⟨_, he⟩ := h.runtimeError .outOfRange (by rfl)
  cases he

end Configuration

end Adacc
