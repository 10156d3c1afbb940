import Adacc.Foundation.Words
import Adacc.FuzzingHelper.Statistics

/-!
# The commands of the helper

`symcc.rs`: what the helper runs, and where it has the command lines from. The command line of the
fuzzer is read from its file `fuzzer_stats`, where the arguments are joined by spaces; what follows
`--` is run under `afl-showmap`. The command line of the instrumented program is given to the helper
itself. In both the first argument `@@` is replaced by the name of a file, and a program without
such an argument gets its input on the standard input.

Arguments come back from `fuzzer_stats` exactly if none is empty and none contains white space:
`aflCommand_fuzzerStats_iff`. A panic is `none`.
-/

namespace Adacc

namespace FuzzingHelper

namespace Commands

open Scheduling Statistics

/-! ## Texts -/

/-- `str::lines` -/
def lines (text : List Char) : List (List Char) := Words.lines '\n' '\r' text

/-- `str::split_whitespace` -/
def splitWhitespace (text : List Char) : List (List Char) := Words.splitWords isWhitespace text

/-- `str::trim` -/
def trim (text : List Char) : List Char :=
  (text.dropWhile isWhitespace).rdropWhile isWhitespace

private theorem splitWhitespace_trim (text : List Char) :
    splitWhitespace (trim text) = splitWhitespace text :=
  (Words.splitWords_rdropWhile _).trans (Words.splitWords_dropWhile text)

/-- `line.splitn(2, ':').nth(1)` -/
def afterColon (line : List Char) : Option (List Char) :=
  if ':' ∈ line then some ((line.dropWhile (· ≠ ':')).drop 1) else none

/-! ## Paths -/

/-- `Path::components` -/
def components (text : List Char) : PathBuf :=
  let pieces := text.splitOn '/'
  let start :=
    if text.head? = some '/' then [Component.rootDir]
    else if pieces.head? = some ['.'] then [.curDir]
    else []
  start ++ (pieces.filter fun piece ↦ piece ≠ [] ∧ piece ≠ ['.']).map fun piece ↦
    if piece = ['.', '.'] then .parentDir else .normal piece

/-- `Path::parent` -/
def parent (path : PathBuf) : Option PathBuf :=
  match path.getLast? with
  | none | some .rootDir => none
  | some _ => some path.dropLast

/-- `Path::join`, for a name that is not an absolute path. -/
def join (dir name : OsString) : OsString :=
  if dir.bytes.getLast? = none ∨ dir.bytes.getLast? = some 0x2F then ⟨dir.bytes ++ name.bytes⟩
  else ⟨dir.bytes ++ 0x2F :: name.bytes⟩

/-! ## The input file among the arguments -/

def atSigns : OsString := ⟨[0x40, 0x40]⟩

/-- `insert_input_file` -/
def insertInputFile : List OsString → OsString → List OsString
  | [], _ => []
  | s :: command, inputFile =>
    if s = atSigns then inputFile :: command else s :: insertInputFile command inputFile

/-- Only the first `@@` is replaced. -/
theorem insertInputFile_append {before : List OsString} (h : atSigns ∉ before)
    (after : List OsString) (inputFile : OsString) :
    insertInputFile (before ++ atSigns :: after) inputFile = before ++ inputFile :: after := by
  induction before with
  | nil => rfl
  | cons s before ih =>
    obtain ⟨hs, hbefore⟩ := not_or.mp (List.mem_cons.not.mp h)
    rw [List.cons_append, insertInputFile, if_neg (Ne.symm hs), ih hbefore, List.cons_append]

private theorem insertInputFile_of_not_mem {command : List OsString} (h : atSigns ∉ command)
    (inputFile : OsString) : insertInputFile command inputFile = command := by
  induction command with
  | nil => rfl
  | cons s command ih =>
    obtain ⟨hs, hcommand⟩ := not_or.mp (List.mem_cons.not.mp h)
    rw [insertInputFile, if_neg (Ne.symm hs), ih hcommand]

/-- A program gets its input once: on the standard input, or as the file that the first `@@` is
replaced by. -/
def HandsOver (command : List OsString) (inputFile : OsString) (args : List OsString)
    (piped : Bool) : Prop :=
  (piped = true ∧ atSigns ∉ command ∧ args = command) ∨
    piped = false ∧ ∃ before after, command = before ++ atSigns :: after ∧ atSigns ∉ before ∧
      args = before ++ inputFile :: after

/-- The standard input is used where no argument has been replaced. -/
theorem handsOver_insertInputFile (command : List OsString) (inputFile : OsString) :
    HandsOver command inputFile (insertInputFile command inputFile)
      (!command.contains atSigns) := by
  by_cases h : atSigns ∈ command
  · obtain ⟨before, after, hsplit, hbefore⟩ := List.eq_append_cons_of_mem h
    refine .inr ⟨by simp [h], before, after, hsplit, hbefore, ?_⟩
    rw [hsplit, insertInputFile_append hbefore]
  · exact .inl ⟨by simp [h], h, insertInputFile_of_not_mem h inputFile⟩

/-! ## The command of the fuzzer -/

/-- `AflConfig` -/
structure AflConfig where
  showMap : PathBuf
  targetCommand : List OsString
  useStandardInput : Bool
  useQemuMode : Bool
  queue : OsString

/-- `afl_command` in `AflConfig::load`. -/
def aflCommand (aflStats : List Char) : Option (List (List Char)) := do
  let line ← (lines aflStats).find? fun l ↦ "command_line".toList.isPrefixOf l
  let command ← afterColon line
  return splitWhitespace (trim command)

def ofWord (word : List Char) : OsString := osString (String.ofList word)

/-- The configuration that belongs to a command. -/
def configOf (fuzzerOutput : OsString) (command : List (List Char)) : Option AflConfig := do
  let binary ← command.head?
  let aflBinaryDir ← parent (components binary)
  let aflTargetCommand := (command.dropWhile (· ≠ "--".toList)).map ofWord
  return {
    showMap := aflBinaryDir ++ [.normal "afl-showmap".toList]
    useStandardInput := !aflTargetCommand.contains atSigns
    useQemuMode := command.contains "-Q".toList
    targetCommand := aflTargetCommand
    queue := join fuzzerOutput (osString "queue") }

/-- `AflConfig::load`, where the stats file can be opened and read or not. -/
def AflConfig.load (fuzzerOutput : OsString) (openStats : Except Error Unit)
    (readStats : Except Error (List UInt8)) : Option (Except Error AflConfig) :=
  let aflStatsFilePath := join fuzzerOutput (osString "fuzzer_stats")
  match openStats with
  | .error e =>
    some (.error (("Failed to open the fuzzer's stats at " ++ aflStatsFilePath.display) :: e))
  | .ok () =>
    let failed (e : Error) : Option (Except Error AflConfig) :=
      some (.error (("Failed to read the fuzzer's stats at " ++ aflStatsFilePath.display) :: e))
    match readStats with
    | .error e => failed e
    | .ok bytes =>
      match ByteText.decodeStrict bytes with
      | none => failed ["stream did not contain valid UTF-8"]
      | some aflStats => ((aflCommand aflStats).bind (configOf fuzzerOutput)).map .ok

/-! ## The file of the fuzzer -/

/-- The line with the command, where `pad` aligns the colons of the file. -/
def commandLine (pad : List Char) (command : List (List Char)) : List Char :=
  "command_line".toList ++ pad ++ (": ".toList ++ [' '].intercalate command)

/-- `fuzzer_stats`, with the lines before the command line and the text after it. -/
def fuzzerStats (before : List (List Char)) (pad : List Char) (command : List (List Char))
    (rest : List Char) : List Char :=
  (before.flatMap fun line ↦ line ++ ['\n']) ++ commandLine pad command ++ '\n' :: rest

/-- Another line of the file. -/
def OtherLine (line : List Char) : Prop := '\n' ∉ line ∧ ¬ "command_line".toList <+: line

instance (line : List Char) : Decidable (OtherLine line) := inferInstanceAs (Decidable (_ ∧ _))

/-- The line with the command is found after the others. -/
theorem find?_lines_append {before : List (List Char)} (h : ∀ line ∈ before, OtherLine line)
    (text : List Char) :
    (lines ((before.flatMap fun line ↦ line ++ ['\n']) ++ text)).find?
        (fun l ↦ "command_line".toList.isPrefixOf l)
      = (lines text).find? fun l ↦ "command_line".toList.isPrefixOf l := by
  induction before with
  | nil => rfl
  | cons line before ih =>
    obtain ⟨⟨hnl, hother⟩, hbefore⟩ := List.forall_mem_cons.mp h
    have hstrip : ¬ "command_line".toList.isPrefixOf (Words.stripEnd '\r' line) = true := by
      rw [List.isPrefixOf_iff_prefix]
      exact fun hp ↦ hother (hp.trans (Words.stripEnd_prefix _ _))
    rw [List.flatMap_cons, List.append_assoc, List.append_assoc, List.singleton_append, lines,
      Words.lines_append_cons hnl, List.find?_cons_of_neg hstrip]
    exact ih hbefore

private theorem afterColon_append {key : List Char} (h : ':' ∉ key) (value : List Char) :
    afterColon (key ++ ':' :: value) = some value := by
  have hdrop : (key ++ ':' :: value).dropWhile (· ≠ ':') = ':' :: value := by
    rw [List.dropWhile_append_of_pos, List.dropWhile_cons_of_neg (by simp)]
    intro c hc
    exact decide_eq_true fun heq ↦ h (heq ▸ hc)
  rw [afterColon, if_pos (List.mem_append_right _ List.mem_cons_self), hdrop]
  rfl

private theorem afterColon_commandLine {pad : List Char} (hpad : ':' ∉ pad)
    (command : List (List Char)) :
    afterColon (commandLine pad command) = some (' ' :: [' '].intercalate command) := by
  have hkey : ':' ∉ "command_line".toList ++ pad := by
    rw [List.mem_append, not_or]
    exact ⟨by decide, hpad⟩
  exact afterColon_append hkey _

section

variable {pad : List Char} {command : List (List Char)}

/-- What ends a line is white space, so no word contains it. -/
theorem ne_of_mem_value (h : ∀ word ∈ command, Words.IsWord isWhitespace word) :
    ∀ c ∈ ": ".toList ++ [' '].intercalate command, c ≠ '\n' ∧ c ≠ '\r' := by
  intro c hc
  obtain hc | hc := List.mem_append.mp hc
  · have hc : c ∈ [':', ' '] := hc
    obtain rfl | rfl := List.mem_pair.mp hc <;> decide
  · obtain rfl | ⟨word, hmem, hc⟩ := Words.mem_intercalate hc
    · decide
    · have hspace := (h word hmem).2 c hc
      constructor <;> rintro rfl <;> exact absurd hspace (by decide)

private theorem not_mem_commandLine (hpad : '\n' ∉ pad)
    (h : ∀ word ∈ command, Words.IsWord isWhitespace word) : '\n' ∉ commandLine pad command := by
  unfold commandLine
  rw [List.mem_append, List.mem_append]
  rintro ((hc | hc) | hc)
  · exact absurd hc (by decide)
  · exact hpad hc
  · exact (ne_of_mem_value h _ hc).1 rfl

private theorem stripEnd_commandLine (h : ∀ word ∈ command, Words.IsWord isWhitespace word) :
    Words.stripEnd '\r' (commandLine pad command) = commandLine pad command := by
  rw [Words.stripEnd, if_neg]
  unfold commandLine
  rw [List.getLast?_append_of_ne_nil _ (by simp)]
  exact fun hlast ↦ (ne_of_mem_value h _ (List.mem_of_getLast? hlast)).2 rfl

end

/-- A command that consists of words is read as it was written. -/
theorem aflCommand_fuzzerStats {before : List (List Char)} {pad : List Char}
    (hbefore : ∀ line ∈ before, OtherLine line) (hpad : ':' ∉ pad ∧ '\n' ∉ pad)
    {command : List (List Char)} (h : ∀ word ∈ command, Words.IsWord isWhitespace word)
    (rest : List Char) : aflCommand (fuzzerStats before pad command rest) = some command := by
  have hfind : (lines (fuzzerStats before pad command rest)).find?
      (fun l ↦ "command_line".toList.isPrefixOf l) = some (commandLine pad command) := by
    rw [fuzzerStats, List.append_assoc, find?_lines_append hbefore, lines,
      Words.lines_append_cons (not_mem_commandLine hpad.2 h), stripEnd_commandLine h,
      List.find?_cons_of_pos]
    unfold commandLine
    rw [List.isPrefixOf_iff_prefix, List.append_assoc]
    exact List.prefix_append _ _
  have hwords : splitWhitespace (' ' :: [' '].intercalate command) = command :=
    (Words.splitWords_append_cons (p := isWhitespace) rfl [] _).trans
      ((Words.splitWords_intercalate_iff rfl).mpr h)
  rw [aflCommand, hfind, Option.bind_eq_bind, Option.bind_some,
    afterColon_commandLine hpad.1 command]
  exact congrArg some ((splitWhitespace_trim _).trans hwords)

/-- The command that is read consists of words, so it can only be the one that was written if that
does too. Then it is. -/
theorem aflCommand_fuzzerStats_iff {before : List (List Char)} {pad : List Char}
    (hbefore : ∀ line ∈ before, OtherLine line) (hpad : ':' ∉ pad ∧ '\n' ∉ pad)
    (command : List (List Char)) (rest : List Char) :
    aflCommand (fuzzerStats before pad command rest) = some command ↔
      ∀ word ∈ command, Words.IsWord isWhitespace word := by
  constructor
  · intro h word hword
    obtain ⟨line, -, h⟩ := Option.bind_eq_some_iff.mp h
    obtain ⟨text, -, h⟩ := Option.bind_eq_some_iff.mp h
    obtain rfl := Option.some.inj h
    exact Words.isWord_of_mem_splitWords hword
  · intro h
    exact aflCommand_fuzzerStats hbefore hpad h rest

/-- A command comes back from behind another line. -/
theorem aflCommand_fuzzerStats_iff_command :
    aflCommand (fuzzerStats ["pid : 7".toList] "   ".toList
      ["afl-fuzz".toList, "--".toList, "./t".toList, "@@".toList] "x".toList)
        = some ["afl-fuzz".toList, "--".toList, "./t".toList, "@@".toList] :=
  (aflCommand_fuzzerStats_iff (by decide) (by decide) _ _).mpr (by decide)

/-- The command that `AflConfig::run_showmap` spawns. -/
def AflConfig.showmapCommand (cfg : AflConfig) (testcaseBitmap testcase : OsString) : Command where
  program := display cfg.showMap
  args := (if cfg.useQemuMode then [osString "-Q"] else []) ++
    ["-t", "5000", "-m", "none", "-b", "-o"].map osString ++ [testcaseBitmap] ++
    insertInputFile cfg.targetCommand testcase
  env := []
  stdinPiped := cfg.useStandardInput

/-- The target is run under `afl-showmap` with the arguments that the fuzzer gives it, and gets its
input once. -/
theorem exists_load_fuzzerStats {before : List (List Char)} {pad : List Char}
    (hbefore : ∀ line ∈ before, OtherLine line) (hpad : ':' ∉ pad ∧ '\n' ∉ pad)
    {binary : List Char} {command : List (List Char)}
    (h : ∀ word ∈ binary :: command, Words.IsWord isWhitespace word) {dir : PathBuf}
    (hdir : parent (components binary) = some dir) {bytes : List UInt8} {rest : List Char}
    (hbytes : ByteText.decodeStrict bytes
      = some (fuzzerStats before pad (binary :: command) rest)) (fuzzerOutput : OsString) :
    ∃ cfg, AflConfig.load fuzzerOutput (.ok ()) (.ok bytes) = some (.ok cfg) ∧
      cfg.queue = join fuzzerOutput (osString "queue") ∧
      ∀ testcaseBitmap testcase, ∃ flags args,
        (cfg.showmapCommand testcaseBitmap testcase).program
          = display (dir ++ [.normal "afl-showmap".toList]) ∧
        (cfg.showmapCommand testcaseBitmap testcase).args = flags ++ [testcaseBitmap] ++ args ∧
        HandsOver (((binary :: command).dropWhile (· ≠ "--".toList)).map ofWord) testcase args
          (cfg.showmapCommand testcaseBitmap testcase).stdinPiped := by
  have hload : AflConfig.load fuzzerOutput (.ok ()) (.ok bytes)
      = (configOf fuzzerOutput (binary :: command)).map .ok := by
    rw [AflConfig.load]
    simp only [hbytes, aflCommand_fuzzerStats hbefore hpad h rest, Option.bind_some]
  rw [hload, configOf, List.head?_cons, Option.bind_eq_bind, Option.bind_some, hdir]
  exact ⟨_, rfl, rfl, fun _ _ ↦ ⟨_, _, rfl, rfl, handsOver_insertInputFile _ _⟩⟩

/-- A fuzzer in `/b` with a target that reads a file. -/
theorem exists_load_fuzzerStats_file :
    ∃ cfg, AflConfig.load ⟨[0x6F]⟩ (.ok ())
        (.ok (ByteText.ascii (fuzzerStats [] [' ']
          ["/b/fuzz".toList, "--".toList, "./t".toList, "@@".toList] []))) = some (.ok cfg) ∧
      cfg.queue = join ⟨[0x6F]⟩ (osString "queue") ∧
      ∀ testcaseBitmap testcase, ∃ flags args,
        (cfg.showmapCommand testcaseBitmap testcase).program
          = display [.rootDir, .normal ['b'], .normal "afl-showmap".toList] ∧
        (cfg.showmapCommand testcaseBitmap testcase).args = flags ++ [testcaseBitmap] ++ args ∧
        HandsOver (["--".toList, "./t".toList, "@@".toList].map ofWord) testcase args
          (cfg.showmapCommand testcaseBitmap testcase).stdinPiped :=
  have hwords : ∀ word ∈ ["/b/fuzz".toList, "--".toList, "./t".toList, "@@".toList],
      Words.IsWord isWhitespace word := by decide
  have hbytes : ByteText.decodeStrict (ByteText.ascii (fuzzerStats [] [' ']
      ["/b/fuzz".toList, "--".toList, "./t".toList, "@@".toList] []))
        = some (fuzzerStats [] [' ']
          ["/b/fuzz".toList, "--".toList, "./t".toList, "@@".toList] []) := by decide
  exists_load_fuzzerStats (List.forall_mem_nil _) (by decide) hwords
    (by decide : parent (components "/b/fuzz".toList) = some [.rootDir, .normal ['b']]) hbytes
    ⟨[0x6F]⟩

/-! ## The command of the instrumented program -/

/-- `SymCC::new` -/
def SymCC.new (outputDir : OsString) (command : List String) : SymCC :=
  let inputFile := join outputDir (osString ".cur_input")
  { useStandardInput := !command.contains "@@"
    bitmap := join outputDir (osString "bitmap")
    command := insertInputFile (command.map osString) inputFile
    inputFile }

end Commands

end FuzzingHelper

end Adacc
