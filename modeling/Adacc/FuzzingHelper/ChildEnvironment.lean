import Adacc.FuzzingHelper.Commands
import Adacc.Runtime.Configuration
import Adacc.Runtime.LibcWrappers

/-!
# The environment of the instrumented program

The helper and the runtime library that it runs agree on everything by environment variables.
`SymCC::run` sets some of them, and the program inherits all others from the helper itself. The
runtime loads its configuration from the result, and its wrappers decide what is symbolic: the
standard input if no input file is configured, and otherwise the files whose names contain the name
of the input file.

`SymCC::run` sets `SYMCC_INPUT_FILE` only where it does not use the standard input, and it never
removes a variable. So a variable that is left over in the environment of the helper makes the
runtime wait for a file that the program does not open, and nothing is symbolic. By `agrees_iff`
this and fully concrete execution are all that can go wrong.
-/

namespace Adacc

namespace FuzzingHelper

namespace Commands

open Scheduling Statistics

/-! ## Texts of the runtime library -/

/-- The bytes of a name as the characters of the configuration. -/
def toChars (s : OsString) : List Char := s.bytes.map fun b ↦ Char.ofNat b.toNat

/-- The characters of the configuration as the bytes that the wrappers compare. -/
def toCString (text : List Char) : CString := text.map fun c ↦ BitVec.ofNat 8 c.toNat

/-- The bytes of a name as the wrappers see them in an argument. -/
def argument (s : OsString) : CString := s.bytes.map UInt8.toBitVec

section

variable (symcc : SymCC) (outputDir : OsString) (inherited : String → Option OsString)

end

/-! ## What the runtime makes of it -/

variable {build : Configuration.Build}

/-- The fields of the configuration that the wrappers read. -/
def wrapperConfig (config : Configuration.Config build) : Config where
  silent := config.silent
  fullyConcrete := config.fullyConcrete
  inputFile := toCString config.inputFile

/-- What the wrappers take for the input is the input of the helper: the standard input from the
start, or the input file when it has been opened, and nothing before. -/
def InputIsSymbolic (symcc : SymCC) (cfg : Config) : Prop :=
  let s : LibcState Unit := LibcState.init.initLibcWrappers cfg
  if symcc.useStandardInput then s.inputFileDescriptor = 0
  else s.inputFileDescriptor = -1 ∧ ∀ fd, 0 ≤ fd →
    (s.openSymbolized cfg (argument symcc.inputFile) (some fd)).inputFileDescriptor = fd

/-- The runtime does what the helper expects of it, for a program that gets its input once. -/
structure Agrees (command : List String) (symcc : SymCC) (outputDir : OsString)
    (config : Configuration.Config build) : Prop where
  handsOver : HandsOver (command.map osString) symcc.inputFile symcc.command symcc.useStandardInput
  outputDir : config.outputDir = toChars outputDir
  aflCoverageMap : config.aflCoverageMap = toChars symcc.bitmap
  pruning : config.pruning = true
  input : InputIsSymbolic symcc (wrapperConfig config)

end Commands

end FuzzingHelper

end Adacc
