import Adacc.Runtime.InputByteSource
import Adacc.Runtime.RuntimeCommon

/-!
# Wrappers for the C library

`LibcWrappers.cpp`: calls of certain library functions are redirected to wrappers, which call the
function and then do for shadow memory and the return slot what the function has done for memory
and its result. Two variables say where symbolic input comes from: the descriptor of the input file
and the position of the next byte that will be read from it. Every wrapper that reads from that
descriptor, or moves its position, has to work out again how far the library has moved.

A wrapper is a function of what the library has answered. Results of `-1`, null pointers and `EOF`
are `none`. The wrappers return the result of the library function, so only their effect is
modelled; where a wrapper returns something else, it says so. Constraints are collected in the order
in which they are pushed, and so are the lines that are printed to the standard error.

The wrappers that read ask the backend for input bytes, and `source` says which backend that is.
`LibcState.call`, which has all wrappers, is for programs that skip no bytes of the input, where the
backends agree; it asks the QSYM backend.
-/

namespace Adacc

open ModularRange

/-- The bytes of a C string, without the terminating NUL. -/
abbrev CString := List (BitVec 8)

/-- `strstr(haystack, needle) != nullptr` -/
def strstr (haystack needle : CString) : Bool := needle <:+: haystack

/-- The number of bytes before the first NUL, in so many bytes. -/
def strlenLoop (mem : UIntPtr → BitVec 8) : ℕ → UIntPtr → ℕ
  | 0, _ => 0
  | n + 1, str => if mem str = 0 then 0 else strlenLoop mem n (str + 1) + 1

theorem strlenLoop_le (mem : UIntPtr → BitVec 8) (n : ℕ) (str : UIntPtr) :
    strlenLoop mem n str ≤ n := by
  induction n generalizing str with
  | zero => exact Nat.le_refl 0
  | succ n ih =>
    rw [strlenLoop]
    split
    · exact Nat.zero_le _
    · exact Nat.succ_le_succ (ih (str + 1))

/-- `strlen` -/
def strlen (mem : UIntPtr → BitVec 8) (str : UIntPtr) : SizeT :=
  BitVec.ofNat 64 (strlenLoop mem (2 ^ 64 - 1) str)

/-- `g_config`, as far as the wrappers use it. -/
structure Config where
  silent : Bool
  fullyConcrete : Bool
  inputFile : CString

/-- The wrappers that push constraints. -/
inductive LibcFunction
  | malloc | calloc | mmap64 | read | fread | fgets | fseek | fseeko | fseeko64 | memcpy | memset
  | memmove | strncpy | strchr | memcmp
  deriving DecidableEq

/-- The arguments of `_sym_push_path_constraint`. The site is the address of a wrapper. -/
structure PathConstraint (SymExpr : Type) where
  constraint : SymExpr
  taken : Bool
  site : LibcFunction

/-- The state of the runtime library that the wrappers read and change. -/
structure LibcState (SymExpr : Type) where
  inputFileDescriptor : Int32
  inputOffset : BitVec 64
  /-- The vector in `_sym_get_input_byte`, which only the simple backend has. -/
  stdinBytes : List (Option SymExpr)
  slots : Slots SymExpr
  pages : ShadowPages SymExpr
  pathConstraints : List (PathConstraint SymExpr)
  cerr : List String

namespace LibcState

variable {SymExpr : Type}

/-- The state before the library is initialized. -/
def init : LibcState SymExpr where
  inputFileDescriptor := -1
  inputOffset := 0
  stdinBytes := []
  slots := .init
  pages := ∅
  pathConstraints := []
  cerr := []

/-- `initLibcWrappers` -/
def initLibcWrappers (cfg : Config) (s : LibcState SymExpr) : LibcState SymExpr :=
  if cfg.fullyConcrete then s
  else if cfg.inputFile.isEmpty then { s with inputFileDescriptor := 0 }
  else s

/-- `_sym_get_parameter_expression` -/
def param (s : LibcState SymExpr) (index : UInt8) : Option SymExpr :=
  s.slots.symGetParameterExpression index

/-- `_sym_set_return_expression` -/
def setReturn (expr : Option SymExpr) (s : LibcState SymExpr) : LibcState SymExpr :=
  { s with slots := s.slots.symSetReturnExpression expr }

section Fields

variable (s : LibcState SymExpr) (expr : Option SymExpr)

@[simp] theorem inputFileDescriptor_setReturn :
    (s.setReturn expr).inputFileDescriptor = s.inputFileDescriptor := rfl

@[simp] theorem inputOffset_setReturn : (s.setReturn expr).inputOffset = s.inputOffset := rfl

@[simp] theorem stdinBytes_setReturn : (s.setReturn expr).stdinBytes = s.stdinBytes := rfl

@[simp] theorem pages_setReturn : (s.setReturn expr).pages = s.pages := rfl

@[simp] theorem param_setReturn (index : UInt8) :
    (s.setReturn expr).param index = s.param index := rfl

end Fields

/-! ## Opening files -/

/-- The path names the input file, as far as the wrappers can tell. -/
def namesInputFile (cfg : Config) (path : CString) : Bool :=
  !cfg.fullyConcrete && !cfg.inputFile.isEmpty && strstr path cfg.inputFile

/-- What the three wrappers below do once a path has been opened under the number `fd`. -/
def rememberInputFile (cfg : Config) (path : CString) (fd : Int32) (s : LibcState SymExpr) :
    LibcState SymExpr :=
  if namesInputFile cfg path then
    let s :=
      if s.inputFileDescriptor ≠ -1 then
        if cfg.silent = false then
          { s with cerr := s.cerr ++
            ["Warning: input file opened multiple times; this is not yet supported"] }
        else s
      else s
    { s with inputFileDescriptor := fd, inputOffset := 0 }
  else s

/-- `open_symbolized` -/
def openSymbolized (cfg : Config) (path : CString) (result : Option Int32)
    (s : LibcState SymExpr) : LibcState SymExpr :=
  let s := s.setReturn none
  match result with
  | none => s
  | some fd => s.rememberInputFile cfg path fd

/-- `fopen_symbolized`, where `result` is the `fileno` of the stream. -/
def fopenSymbolized (cfg : Config) (pathname : CString) (result : Option Int32)
    (s : LibcState SymExpr) : LibcState SymExpr :=
  let s := s.setReturn none
  match result with
  | none => s
  | some fd => s.rememberInputFile cfg pathname fd

/-- `fopen64_symbolized` -/
def fopen64Symbolized (cfg : Config) (pathname : CString) (result : Option Int32)
    (s : LibcState SymExpr) : LibcState SymExpr :=
  let s := s.setReturn none
  match result with
  | none => s
  | some fd => s.rememberInputFile cfg pathname fd

@[simp] theorem pages_rememberInputFile (cfg : Config) (path : CString) (fd : Int32)
    (s : LibcState SymExpr) : (s.rememberInputFile cfg path fd).pages = s.pages := by
  unfold rememberInputFile
  dsimp only
  split_ifs <;> rfl

@[simp] theorem stdinBytes_rememberInputFile (cfg : Config) (path : CString) (fd : Int32)
    (s : LibcState SymExpr) : (s.rememberInputFile cfg path fd).stdinBytes = s.stdinBytes := by
  unfold rememberInputFile
  dsimp only
  split_ifs <;> rfl

theorem rememberInputFile_of_true {cfg : Config} {path : CString}
    (h : namesInputFile cfg path = true) (fd : Int32) (s : LibcState SymExpr) :
    (s.rememberInputFile cfg path fd).inputFileDescriptor = fd ∧
      (s.rememberInputFile cfg path fd).inputOffset = 0 := by
  rw [rememberInputFile, if_pos h]
  exact ⟨rfl, rfl⟩

theorem rememberInputFile_of_false {cfg : Config} {path : CString}
    (h : namesInputFile cfg path = false) (fd : Int32) (s : LibcState SymExpr) :
    s.rememberInputFile cfg path fd = s := by
  rw [rememberInputFile, if_neg (by rw [h]; exact Bool.false_ne_true)]

@[simp] theorem pages_openSymbolized (cfg : Config) (path : CString) (result : Option Int32)
    (s : LibcState SymExpr) : (s.openSymbolized cfg path result).pages = s.pages := by
  cases result with
  | none => rfl
  | some fd => exact pages_rememberInputFile cfg path fd _

@[simp] theorem stdinBytes_openSymbolized (cfg : Config) (path : CString) (result : Option Int32)
    (s : LibcState SymExpr) : (s.openSymbolized cfg path result).stdinBytes = s.stdinBytes := by
  cases result with
  | none => rfl
  | some fd => exact stdinBytes_rememberInputFile cfg path fd _

@[simp] theorem stdinBytes_fopenSymbolized (cfg : Config) (pathname : CString)
    (result : Option Int32) (s : LibcState SymExpr) :
    (s.fopenSymbolized cfg pathname result).stdinBytes = s.stdinBytes := by
  cases result with
  | none => rfl
  | some fd => exact stdinBytes_rememberInputFile cfg pathname fd _

/-! ## Moving in a file -/

/-- `lseek64_symbolized` -/
def lseek64Symbolized (fd : Int32) (whence : Int32) (result : Option (BitVec 64))
    (s : LibcState SymExpr) : LibcState SymExpr :=
  let s := s.setReturn none
  match result with
  | none => s
  | some result =>
    -- `SEEK_SET`
    let s := if whence = 0 then s.setReturn (s.param 1) else s
    if fd = s.inputFileDescriptor then { s with inputOffset := result } else s

/-- `rewind_symbolized` -/
def rewindSymbolized (fd : Int32) (s : LibcState SymExpr) : LibcState SymExpr :=
  let s := s.setReturn none
  if fd = s.inputFileDescriptor then { s with inputOffset := 0 } else s

/-- `ungetc_symbolized`, where `result` is whether the character has been pushed back. -/
def ungetcSymbolized (fd : Int32) (result : Bool) (s : LibcState SymExpr) : LibcState SymExpr :=
  let s := s.setReturn (s.param 0)
  if fd = s.inputFileDescriptor ∧ result then { s with inputOffset := s.inputOffset - 1 } else s

/-- The variables and shadow memory are as before. -/
structure SamePosition (s s' : LibcState SymExpr) : Prop where
  inputFileDescriptor_eq : s'.inputFileDescriptor = s.inputFileDescriptor
  inputOffset_eq : s'.inputOffset = s.inputOffset
  stdinBytes_eq : s'.stdinBytes = s.stdinBytes
  pages_eq : s'.pages = s.pages

/-- What it means that a call has moved the position of `fd`. -/
structure Moves (s s' : LibcState SymExpr) (fd : Int32) (offset : BitVec 64) : Prop where
  inputFileDescriptor_eq : s'.inputFileDescriptor = s.inputFileDescriptor
  stdinBytes_eq : s'.stdinBytes = s.stdinBytes
  pages_eq : s'.pages = s.pages
  input : fd = s.inputFileDescriptor → s'.inputOffset = offset
  other : fd ≠ s.inputFileDescriptor → s'.inputOffset = s.inputOffset

theorem moves_lseek64Symbolized (s : LibcState SymExpr) (fd whence : Int32) (result : BitVec 64) :
    Moves s (s.lseek64Symbolized fd whence (some result)) fd result := by
  unfold lseek64Symbolized
  dsimp only
  split
  all_goals
    split
    · next h => exact ⟨rfl, rfl, rfl, fun _ ↦ rfl, fun hne ↦ absurd h hne⟩
    · next h => exact ⟨rfl, rfl, rfl, fun heq ↦ absurd heq h, fun _ ↦ rfl⟩

theorem moves_rewindSymbolized (s : LibcState SymExpr) (fd : Int32) :
    Moves s (s.rewindSymbolized fd) fd 0 := by
  unfold rewindSymbolized
  dsimp only
  split
  · next h => exact ⟨rfl, rfl, rfl, fun _ ↦ rfl, fun hne ↦ absurd h hne⟩
  · next h => exact ⟨rfl, rfl, rfl, fun heq ↦ absurd heq h, fun _ ↦ rfl⟩

theorem moves_ungetcSymbolized (s : LibcState SymExpr) (fd : Int32) :
    Moves s (s.ungetcSymbolized fd true) fd (s.inputOffset - 1) := by
  unfold ungetcSymbolized
  dsimp only
  split
  · next h => exact ⟨rfl, rfl, rfl, fun _ ↦ rfl, fun hne ↦ absurd h.1 hne⟩
  · next h => exact ⟨rfl, rfl, rfl, fun heq ↦ absurd ⟨heq, rfl⟩ h, fun _ ↦ rfl⟩

theorem samePosition_ungetcSymbolized (s : LibcState SymExpr) (fd : Int32) :
    SamePosition s (s.ungetcSymbolized fd false) := by
  unfold ungetcSymbolized
  dsimp only
  rw [if_neg (by simp)]
  exact ⟨rfl, rfl, rfl, rfl⟩

variable [Backend SymExpr]

open Backend

/-- `tryAlternative`, for a value of `bits` bits. -/
def tryAlternative (value : BitVec 64) (bits : UInt8) (valueExpr : Option SymExpr)
    (caller : LibcFunction) (s : LibcState SymExpr) : LibcState SymExpr :=
  match valueExpr with
  | none => s
  | some valueExpr =>
    { s with
      pathConstraints := s.pathConstraints ++
        [⟨symBuildCompare .eq valueExpr (symBuildInteger value bits), true, caller⟩] }

section Fields

variable (s : LibcState SymExpr) (value : BitVec 64) (bits : UInt8) (valueExpr : Option SymExpr)
  (caller : LibcFunction)

@[simp] theorem param_tryAlternative (index : UInt8) :
    (s.tryAlternative value bits valueExpr caller).param index = s.param index := by
  cases valueExpr <;> rfl

@[simp] theorem inputFileDescriptor_tryAlternative :
    (s.tryAlternative value bits valueExpr caller).inputFileDescriptor
      = s.inputFileDescriptor := by
  cases valueExpr <;> rfl

@[simp] theorem inputOffset_tryAlternative :
    (s.tryAlternative value bits valueExpr caller).inputOffset = s.inputOffset := by
  cases valueExpr <;> rfl

@[simp] theorem stdinBytes_tryAlternative :
    (s.tryAlternative value bits valueExpr caller).stdinBytes = s.stdinBytes := by
  cases valueExpr <;> rfl

@[simp] theorem pages_tryAlternative :
    (s.tryAlternative value bits valueExpr caller).pages = s.pages := by
  cases valueExpr <;> rfl

end Fields

/-! ## Allocating memory -/

/-- `malloc_symbolized` -/
def mallocSymbolized (size : SizeT) (s : LibcState SymExpr) : LibcState SymExpr :=
  (s.tryAlternative size 64 (s.param 0) .malloc).setReturn none

/-- `calloc_symbolized` -/
def callocSymbolized (nmemb size : SizeT) (s : LibcState SymExpr) : LibcState SymExpr :=
  let s := s.tryAlternative nmemb 64 (s.param 0) .calloc
  (s.tryAlternative size 64 (s.param 1) .calloc).setReturn none

/-- `mmap64_symbolized` and `mmap_symbolized` -/
def mmap64Symbolized (len : SizeT) (s : LibcState SymExpr) : LibcState SymExpr :=
  (s.tryAlternative len 64 (s.param 1) .mmap64).setReturn none

/-! ## Reading -/

/-- The loop of `std::generate`, and the number of turns that remain. A generator has a state. -/
def stdGenerateLoop {γ : Type} (generator : γ → γ × Option SymExpr) (last : WriteShadowIterator) :
    ℕ → WriteShadowIterator → γ → ShadowPages SymExpr → γ × ShadowPages SymExpr
  | 0, _, g, pages => (g, pages)
  | n + 1, first, g, pages =>
    if first.address_ = last.address_ then (g, pages)
    else
      let (g, byte) := generator g
      let (first, pages) := first.next (first.assign pages byte)
      stdGenerateLoop generator last n first g pages

/-- `std::generate` over a view of `length` bytes at `addr` -/
def stdGenerate {γ : Type} (generator : γ → γ × Option SymExpr) (addr : UIntPtr) (length : SizeT)
    (g : γ) (pages : ShadowPages SymExpr) : γ × ShadowPages SymExpr :=
  let (first, last, pages) := readWriteShadow pages addr length
  stdGenerateLoop generator last (last.address_ - first.address_).toNat first g pages

/-- The generator `_sym_get_input_byte(inputOffset++)`, whose state is `inputOffset` and that of the
backend. -/
def nextInputByte (source : InputByteSource) (g : BitVec 64 × List (Option SymExpr)) :
    (BitVec 64 × List (Option SymExpr)) × Option SymExpr :=
  let (stdinBytes, byte) := source.symGetInputByte g.2 g.1
  ((g.1 + 1, stdinBytes), byte)

/-- What the wrappers do with a buffer that has been filled from `fd`. -/
def fillBuffer (source : InputByteSource) (fd : Int32) (buf : UIntPtr) (length : SizeT)
    (s : LibcState SymExpr) : LibcState SymExpr :=
  if fd = s.inputFileDescriptor then
    -- reading symbolic input
    let ((inputOffset, stdinBytes), pages) :=
      stdGenerate (nextInputByte source) buf length (s.inputOffset, s.stdinBytes) s.pages
    { s with inputOffset, stdinBytes, pages }
  else if !isConcrete s.pages buf length then
    { s with pages := assignShadow (fun _ ↦ none) buf length s.pages }
  else s

/-- `read_symbolized` -/
def readSymbolized (source : InputByteSource) (fildes : Int32) (buf : UIntPtr) (nbyte : SizeT)
    (result : Option SizeT) (s : LibcState SymExpr) : LibcState SymExpr :=
  let s := s.tryAlternative buf 64 (s.param 1) .read
  let s := s.tryAlternative nbyte 64 (s.param 2) .read
  let s := s.setReturn none
  match result with
  | none => s
  | some result => s.fillBuffer source fildes buf result

/-- `fread_symbolized` on a stream with the descriptor `fd` -/
def freadSymbolized (source : InputByteSource) (fd : Int32) (ptr : UIntPtr) (size nmemb : SizeT)
    (result : SizeT) (s : LibcState SymExpr) : LibcState SymExpr :=
  let s := s.tryAlternative ptr 64 (s.param 0) .fread
  let s := s.tryAlternative size 64 (s.param 1) .fread
  let s := s.tryAlternative nmemb 64 (s.param 2) .fread
  let s := s.setReturn none
  s.fillBuffer source fd ptr (result * size)

/-- `fgets_symbolized`, where `mem` is the memory after the call of `fgets`. -/
def fgetsSymbolized (source : InputByteSource) (fd : Int32) (str : UIntPtr) (n : Int32)
    (mem : UIntPtr → BitVec 8) (s : LibcState SymExpr) : LibcState SymExpr :=
  let s := s.tryAlternative str 64 (s.param 0) .fgets
  let s := s.tryAlternative (n.toBitVec.signExtend 64) 32 (s.param 1) .fgets
  let s := s.setReturn (s.param 0)
  s.fillBuffer source fd str (strlen mem str)

/-- What the wrappers for `getc` and `fgetc` do. The builder does not survive a null pointer, which
leaves no expression either. -/
def readCharacter (source : InputByteSource) (fd : Int32) (result : Option (BitVec 8))
    (s : LibcState SymExpr) : LibcState SymExpr :=
  match result with
  | none => s.setReturn none
  | some _ =>
    if fd = s.inputFileDescriptor then
      let (stdinBytes, byte) := source.symGetInputByte s.stdinBytes s.inputOffset
      { s.setReturn (byte.map (symBuildZExt · 24)) with
        inputOffset := s.inputOffset + 1
        stdinBytes }
    else s.setReturn none

/-- `getc_symbolized` -/
def getcSymbolized (source : InputByteSource) (fd : Int32) (result : Option (BitVec 8))
    (s : LibcState SymExpr) : LibcState SymExpr :=
  s.readCharacter source fd result

/-- `fgetc_symbolized` -/
def fgetcSymbolized (source : InputByteSource) (fd : Int32) (result : Option (BitVec 8))
    (s : LibcState SymExpr) : LibcState SymExpr :=
  s.readCharacter source fd result

/-! ## Moving in a stream -/

/-- What the three wrappers below do, where `result` is whether the call has succeeded and `pos` is
what `ftell` reports then. If `ftell` fails they return `-1`. -/
def seekStream (caller : LibcFunction) (fd : Int32) (offset : BitVec 64) (result : Bool)
    (pos : Option (BitVec 64)) (s : LibcState SymExpr) : LibcState SymExpr :=
  let s := s.tryAlternative offset 64 (s.param 1) caller
  let s := s.setReturn none
  if result then
    if fd = s.inputFileDescriptor then
      match pos with
      | none => s
      | some pos => { s with inputOffset := pos }
    else s
  else s

/-- `fseek_symbolized` -/
def fseekSymbolized (fd : Int32) (offset : BitVec 64) (result : Bool) (pos : Option (BitVec 64))
    (s : LibcState SymExpr) : LibcState SymExpr :=
  s.seekStream .fseek fd offset result pos

/-- `fseeko_symbolized` -/
def fseekoSymbolized (fd : Int32) (offset : BitVec 64) (result : Bool) (pos : Option (BitVec 64))
    (s : LibcState SymExpr) : LibcState SymExpr :=
  s.seekStream .fseeko fd offset result pos

/-- `fseeko64_symbolized` -/
def fseeko64Symbolized (fd : Int32) (offset : BitVec 64) (result : Bool)
    (pos : Option (BitVec 64)) (s : LibcState SymExpr) : LibcState SymExpr :=
  s.seekStream .fseeko64 fd offset result pos

/-! ## Moving memory -/

/-- `memcpy_symbolized` -/
def memcpySymbolized (leftToRight : Bool) (dest src : UIntPtr) (n : SizeT)
    (s : LibcState SymExpr) : LibcState SymExpr :=
  let s := s.tryAlternative dest 64 (s.param 0) .memcpy
  let s := s.tryAlternative src 64 (s.param 1) .memcpy
  let s := s.tryAlternative n 64 (s.param 2) .memcpy
  { s with pages := symMemcpy leftToRight dest src n s.pages }.setReturn (s.param 0)

/-- `memset_symbolized` -/
def memsetSymbolized (memory : UIntPtr) (n : SizeT) (s : LibcState SymExpr) :
    LibcState SymExpr :=
  let s := s.tryAlternative memory 64 (s.param 0) .memset
  let s := s.tryAlternative n 64 (s.param 2) .memset
  { s with pages := symMemset memory (s.param 1) n s.pages }.setReturn (s.param 0)

/-- `memmove_symbolized` -/
def memmoveSymbolized (leftToRight : Bool) (dest src : UIntPtr) (n : SizeT)
    (s : LibcState SymExpr) : LibcState SymExpr :=
  let s := s.tryAlternative dest 64 (s.param 0) .memmove
  let s := s.tryAlternative src 64 (s.param 1) .memmove
  let s := s.tryAlternative n 64 (s.param 2) .memmove
  { s with pages := symMemmove leftToRight dest src n s.pages }.setReturn (s.param 0)

/-! ## Strings and bytes -/

/-- `strncpy_symbolized`, where `mem` is memory. -/
def strncpySymbolized (leftToRight : Bool) (mem : UIntPtr → BitVec 8) (dest src : UIntPtr)
    (n : SizeT) (s : LibcState SymExpr) : LibcState SymExpr :=
  let s := s.tryAlternative dest 64 (s.param 0) .strncpy
  let s := s.tryAlternative src 64 (s.param 1) .strncpy
  let s := s.tryAlternative n 64 (s.param 2) .strncpy
  let s := s.setReturn none
  -- `std::min(n, strnlen(src, n))`
  let copied := BitVec.ofNat 64 (strlenLoop mem n.toNat src)
  if isConcrete s.pages src copied && isConcrete s.pages dest n then s
  else
    let (destBegin, pages) := WriteShadowIterator.mk' s.pages dest
    let seen := if leftToRight then s.pages else pages
    let pages := stdCopy (ReadShadowIterator.mk' seen src)
      (ReadShadowIterator.mk' seen (src + copied)) destBegin pages
    if copied < n then
      { s with pages := assignShadow (fun _ ↦ none) (dest + copied) (n - copied) pages }
    else { s with pages }

/-- `strchr_symbolized`, where `mem` is memory and `result` the address of the character. -/
def strchrSymbolized (mem : UIntPtr → BitVec 8) (str : UIntPtr) (c : BitVec 32)
    (result : Option UIntPtr) (s : LibcState SymExpr) : LibcState SymExpr :=
  let s := s.tryAlternative str 64 (s.param 0) .strchr
  let s := s.tryAlternative (c.signExtend 64) 32 (s.param 1) .strchr
  let s := s.setReturn none
  let length := result.elim (strlen mem str) (· - str)
  if isConcrete s.pages str length && (s.param 1).isNone then s
  else
    let cExpr :=
      match s.param 1 with
      | none => symBuildInteger (c.signExtend 64) 8
      | some cExpr => symBuildTrunc cExpr 8
    -- the characters are signed
    let charExpr (a : UIntPtr) :=
      (shadowAt s.pages a).getD (symBuildInteger ((mem a).signExtend 64) 8)
    { s with
      pathConstraints := s.pathConstraints ++ (List.range length.toNat).map fun i ↦
        ⟨symBuildCompare .distinct (charExpr (str + BitVec.ofNat 64 i)) cExpr, true, .strchr⟩ }

/-- `memcmp_symbolized`, where `mem` is memory and `equal` is whether the result is 0. -/
def memcmpSymbolized (mem : UIntPtr → BitVec 8) (a b : UIntPtr) (n : SizeT) (equal : Bool)
    (s : LibcState SymExpr) : LibcState SymExpr :=
  let s := s.tryAlternative a 64 (s.param 0) .memcmp
  let s := s.tryAlternative b 64 (s.param 1) .memcmp
  let s := s.tryAlternative n 64 (s.param 2) .memcmp
  let s := s.setReturn none
  if isConcrete s.pages a n && isConcrete s.pages b n then s
  else
    let bytesEqual i :=
      symBuildCompare .eq (byteExpr mem s.pages (a + BitVec.ofNat 64 i))
        (byteExpr mem s.pages (b + BitVec.ofNat 64 i))
    let allEqual := (List.range (n.toNat - 1)).foldl
      (fun allEqual i ↦ symBuildBoolOp .and allEqual (bytesEqual (i + 1))) (bytesEqual 0)
    { s with pathConstraints := s.pathConstraints ++ [⟨allEqual, equal, .memcmp⟩] }

/-- `ntohl_symbolized` on a little-endian machine -/
def ntohlSymbolized (s : LibcState SymExpr) : LibcState SymExpr :=
  s.setReturn ((s.param 0).map symBuildBswap)

/-! ## What the wrappers do to input bytes -/

omit [Backend SymExpr] in
/-- The generator is called once for every entry, in the order of the entries. -/
theorem stdGenerateLoop_eq {γ : Type} {generator : γ → γ × Option SymExpr} (state : ℕ → γ)
    {value : BitVec 64 → Option SymExpr} {last : WriteShadowIterator} {n : ℕ} (hn : n < 2 ^ 64)
    {i : ℕ} (hstep : ∀ j < n, generator (state (i + j))
      = (state (i + j + 1), value (BitVec.ofNat 64 (i + j)))) {first : WriteShadowIterator}
    {pages : ShadowPages SymExpr} (hlast : last.address_ = first.address_ + BitVec.ofNat 64 n)
    (hfirst : first.Placed pages) :
    stdGenerateLoop generator last n first (state i) pages
      = (state (i + n), assignLoop value last n (BitVec.ofNat 64 i) first pages) := by
  induction n generalizing i first pages with
  | zero => rfl
  | succ n ih =>
    have hne := hlast ▸ ne_add_ofNat (Nat.succ_pos n) hn
    have hgenerator := hstep 0 (Nat.succ_pos n)
    rw [Nat.add_zero] at hgenerator
    rw [stdGenerateLoop, if_neg hne, assignLoop, if_neg hne, hgenerator]
    obtain ⟨haddr, hplaced, -, -⟩ := (hfirst.weaken
      (WriteShadowIterator.pagesLe_assign pages first (value (BitVec.ofNat 64 i)))).next
    have hrest := ih (by omega) (i := i + 1) (fun j hj ↦ by
      have hnext := hstep (j + 1) (by omega)
      rwa [show i + (j + 1) = i + 1 + j from by omega] at hnext)
      (by rw [haddr, hlast, add_ofNat_succ]) hplaced
    rw [show BitVec.ofNat 64 (i + 1) = BitVec.ofNat 64 i + 1 from BitVec.ofNat_add ..,
      show i + 1 + n = i + (n + 1) from by omega] at hrest
    exact hrest

omit [Backend SymExpr] in
theorem stdGenerate_eq {γ : Type} {generator : γ → γ × Option SymExpr} (state : ℕ → γ)
    (value : BitVec 64 → Option SymExpr) (addr : UIntPtr) (length : SizeT)
    (hstep : ∀ j < length.toNat, generator (state j) = (state (j + 1), value (BitVec.ofNat 64 j)))
    (pages : ShadowPages SymExpr) :
    stdGenerate generator addr length (state 0) pages
      = (state length.toNat, assignShadow value addr length pages) := by
  have hfirst := WriteShadowIterator.reached_mk' pages addr
  have hlast := WriteShadowIterator.reached_mk' (WriteShadowIterator.mk' pages addr).2
    (addr + length)
  have hlen : BitVec.ofNat 64 length.toNat = length := by
    rw [BitVec.ofNat_toNat, BitVec.setWidth_eq]
  have hsub : addr + length - addr = length := add_sub_cancel_left addr length
  have hloop := stdGenerateLoop_eq state length.isLt (i := 0)
    (fun j hj ↦ by rw [Nat.zero_add]; exact hstep j hj)
    (hlast.address_eq.trans (by rw [hfirst.address_eq, hlen])) (hfirst.placed.weaken hlast.pagesLe)
  rw [Nat.zero_add] at hloop
  unfold stdGenerate assignShadow forAssign readWriteShadow
  dsimp only
  rw [hlast.address_eq, hfirst.address_eq, hsub]
  exact hloop

/-- The bytes from the current position on are asked for in their order. -/
theorem stdGenerate_nextInputByte (source : InputByteSource) (addr : UIntPtr) (length : SizeT)
    (inputOffset : BitVec 64) (stdinBytes : List (Option SymExpr)) (pages : ShadowPages SymExpr) :
    stdGenerate (nextInputByte source) addr length (inputOffset, stdinBytes) pages
      = ((inputOffset + length, source.bytesAfter stdinBytes inputOffset length.toNat),
        assignShadow (fun i ↦ source.byteFrom stdinBytes inputOffset i.toNat) addr length
          pages) := by
  let state (n : ℕ) : BitVec 64 × List (Option SymExpr) :=
    (inputOffset + BitVec.ofNat 64 n, source.bytesAfter stdinBytes inputOffset n)
  let value (i : BitVec 64) : Option SymExpr := source.byteFrom stdinBytes inputOffset i.toNat
  have hstep : ∀ j < length.toNat,
      nextInputByte source (state j) = (state (j + 1), value (BitVec.ofNat 64 j)) := by
    intro j hj
    have hnext : inputOffset + BitVec.ofNat 64 (j + 1) = inputOffset + BitVec.ofNat 64 j + 1 := by
      rw [BitVec.ofNat_add, ← BitVec.add_assoc]
      rfl
    dsimp only [state, value, nextInputByte]
    rw [BitVec.toNat_ofNat, Nat.mod_eq_of_lt (by omega), source.bytesAfter_succ, hnext]
    rfl
  have hgenerate : stdGenerate (nextInputByte source) addr length (state 0) pages
      = (state length.toNat, assignShadow value addr length pages) :=
    stdGenerate_eq state value addr length hstep pages
  dsimp only [state] at hgenerate
  rwa [add_ofNat_zero, BitVec.ofNat_toNat, BitVec.setWidth_eq] at hgenerate

/-- The QSYM backend returns the expressions of the bytes. -/
theorem stdGenerate_qsym (addr : UIntPtr) (length : SizeT) (inputOffset : BitVec 64)
    (stdinBytes : List (Option SymExpr)) (pages : ShadowPages SymExpr) :
    stdGenerate (nextInputByte .qsym) addr length (inputOffset, stdinBytes) pages
      = ((inputOffset + length, stdinBytes),
        assignShadow (fun i ↦ some (symGetInputByte (inputOffset + i))) addr length pages) := by
  have hvalue : (fun i : BitVec 64 ↦ InputByteSource.qsym.byteFrom stdinBytes inputOffset i.toNat)
      = fun i ↦ some (symGetInputByte (inputOffset + i)) := by
    funext i
    rw [InputByteSource.byteFrom_qsym, BitVec.ofNat_toNat, BitVec.setWidth_eq]
  rw [stdGenerate_nextInputByte, InputByteSource.bytesAfter_qsym, hvalue]

/-- What it means that a call has filled a buffer from `fd`: from the input file it gets what the
backend returns for the bytes from the current position on, from elsewhere it becomes concrete. -/
structure Fills (source : InputByteSource) (s s' : LibcState SymExpr) (fd : Int32) (buf : UIntPtr)
    (length : SizeT) : Prop where
  inputFileDescriptor_eq : s'.inputFileDescriptor = s.inputFileDescriptor
  input : fd = s.inputFileDescriptor →
    s'.inputOffset = s.inputOffset + length ∧
      shadowAt s'.pages = rangeUpdate (shadowAt s.pages) buf length.toNat
        (source.byteFrom s.stdinBytes s.inputOffset)
  asked : fd = s.inputFileDescriptor →
    s'.stdinBytes = source.bytesAfter s.stdinBytes s.inputOffset length.toNat
  other : fd ≠ s.inputFileDescriptor → FastPathSound s.pages buf length →
    s'.inputOffset = s.inputOffset ∧
      shadowAt s'.pages = rangeUpdate (shadowAt s.pages) buf length.toNat fun _ ↦ none
  notAsked : fd ≠ s.inputFileDescriptor → s'.stdinBytes = s.stdinBytes

theorem fills_fillBuffer {s t : LibcState SymExpr} (source : InputByteSource)
    (hfd : t.inputFileDescriptor = s.inputFileDescriptor) (hoffset : t.inputOffset = s.inputOffset)
    (hbytes : t.stdinBytes = s.stdinBytes) (hpages : t.pages = s.pages) (fd : Int32)
    (buf : UIntPtr) (length : SizeT) :
    Fills source s (t.fillBuffer source fd buf length) fd buf length := by
  unfold fillBuffer
  split
  · next h =>
    rw [stdGenerate_nextInputByte]
    refine ⟨hfd, fun _ ↦ ⟨by rw [hoffset], ?_⟩, fun _ ↦ by rw [hoffset, hbytes],
      fun hne ↦ absurd (h.trans hfd) hne, fun hne ↦ absurd (h.trans hfd) hne⟩
    rw [← hoffset, ← hpages, ← hbytes]
    refine (shadowAt_assignShadow _ buf length t.pages).trans (rangeUpdate_congr fun i hi ↦ ?_)
    rw [BitVec.toNat_ofNat, Nat.mod_eq_of_lt (by omega)]
  · next h =>
    rw [hfd] at h
    split
    · refine ⟨hfd, fun heq ↦ absurd heq h, fun heq ↦ absurd heq h, fun _ _ ↦ ⟨hoffset, ?_⟩,
        fun _ ↦ hbytes⟩
      rw [← hpages]
      exact shadowAt_assignShadow _ buf length t.pages
    · next hconcrete =>
      rw [Bool.not_eq_true, Bool.not_eq_false'] at hconcrete
      refine ⟨hfd, fun heq ↦ absurd heq h, fun heq ↦ absurd heq h, fun _ hfast ↦ ⟨hoffset, ?_⟩,
        fun _ ↦ hbytes⟩
      rw [hpages] at hconcrete ⊢
      exact (rangeUpdate_none hfast hconcrete).symm

theorem fills_readSymbolized (source : InputByteSource) (s : LibcState SymExpr) (fildes : Int32)
    (buf : UIntPtr) (nbyte result : SizeT) :
    Fills source s (s.readSymbolized source fildes buf nbyte (some result)) fildes buf result :=
  fills_fillBuffer source (by simp) (by simp) (by simp) (by simp) fildes buf result

theorem fills_freadSymbolized (source : InputByteSource) (s : LibcState SymExpr) (fd : Int32)
    (ptr : UIntPtr) (size nmemb result : SizeT) :
    Fills source s (s.freadSymbolized source fd ptr size nmemb result) fd ptr (result * size) :=
  fills_fillBuffer source (by simp) (by simp) (by simp) (by simp) fd ptr (result * size)

theorem fills_fgetsSymbolized (source : InputByteSource) (s : LibcState SymExpr) (fd : Int32)
    (str : UIntPtr) (n : Int32) (mem : UIntPtr → BitVec 8) :
    Fills source s (s.fgetsSymbolized source fd str n mem) fd str (strlen mem str) :=
  fills_fillBuffer source (by simp) (by simp) (by simp) (by simp) fd str (strlen mem str)

theorem samePosition_readSymbolized (source : InputByteSource) (s : LibcState SymExpr)
    (fildes : Int32) (buf : UIntPtr) (nbyte : SizeT) :
    SamePosition s (s.readSymbolized source fildes buf nbyte none) :=
  ⟨by simp [readSymbolized], by simp [readSymbolized], by simp [readSymbolized],
    by simp [readSymbolized]⟩

theorem moves_seekStream (s : LibcState SymExpr) (caller : LibcFunction) (fd : Int32)
    (offset pos : BitVec 64) : Moves s (s.seekStream caller fd offset true (some pos)) fd pos := by
  unfold seekStream
  simp only [↓reduceIte, inputFileDescriptor_setReturn, inputFileDescriptor_tryAlternative]
  split
  · next h => exact ⟨by simp, by simp, by simp, fun _ ↦ rfl, fun hne ↦ absurd h hne⟩
  · next h => exact ⟨by simp, by simp, by simp, fun heq ↦ absurd heq h, fun _ ↦ by simp⟩

theorem samePosition_seekStream (s : LibcState SymExpr) (caller : LibcFunction) (fd : Int32)
    (offset : BitVec 64) (pos : Option (BitVec 64)) :
    SamePosition s (s.seekStream caller fd offset false pos) := by
  unfold seekStream
  exact ⟨by simp, by simp, by simp, by simp⟩

theorem samePosition_readCharacter (source : InputByteSource) (s : LibcState SymExpr)
    (fd : Int32) : SamePosition s (s.readCharacter source fd none) :=
  ⟨rfl, rfl, rfl, rfl⟩

/-- A character that has been read from the input file. -/
theorem readCharacter_input (source : InputByteSource) (s : LibcState SymExpr) (c : BitVec 8) :
    s.readCharacter source s.inputFileDescriptor (some c)
      = { s.setReturn ((source.byteFrom s.stdinBytes s.inputOffset 0).map (symBuildZExt · 24)) with
          inputOffset := s.inputOffset + 1
          stdinBytes := source.bytesAfter s.stdinBytes s.inputOffset 1 } := by
  rw [readCharacter, if_pos rfl, source.bytesAfter_succ, InputByteSource.byteFrom, add_ofNat_zero]
  rfl

end LibcState

/-! ## All wrappers -/

/-- A call of a wrapper, with what the library answers. `lseek` and `mmap` do what `lseek64` and
`mmap64` do. -/
inductive LibcCall
  | malloc (size : SizeT)
  | calloc (nmemb size : SizeT)
  | mmap64 (len : SizeT)
  | openFile (path : CString) (result : Option Int32)
  | read (fildes : Int32) (buf : UIntPtr) (nbyte : SizeT) (result : Option SizeT)
  | lseek64 (fd whence : Int32) (result : Option (BitVec 64))
  | fopen (pathname : CString) (result : Option Int32)
  | fopen64 (pathname : CString) (result : Option Int32)
  | fread (fd : Int32) (ptr : UIntPtr) (size nmemb result : SizeT)
  | fgets (fd : Int32) (str : UIntPtr) (n : Int32) (mem : UIntPtr → BitVec 8)
  | rewind (fd : Int32)
  | fseek (fd : Int32) (offset : BitVec 64) (result : Bool) (pos : Option (BitVec 64))
  | fseeko (fd : Int32) (offset : BitVec 64) (result : Bool) (pos : Option (BitVec 64))
  | fseeko64 (fd : Int32) (offset : BitVec 64) (result : Bool) (pos : Option (BitVec 64))
  | getc (fd : Int32) (result : Option (BitVec 8))
  | fgetc (fd : Int32) (result : Option (BitVec 8))
  | ungetc (fd : Int32) (result : Bool)
  | memcpy (leftToRight : Bool) (dest src : UIntPtr) (n : SizeT)
  | memset (memory : UIntPtr) (n : SizeT)
  | memmove (leftToRight : Bool) (dest src : UIntPtr) (n : SizeT)
  | strncpy (leftToRight : Bool) (mem : UIntPtr → BitVec 8) (dest src : UIntPtr) (n : SizeT)
  | strchr (mem : UIntPtr → BitVec 8) (str : UIntPtr) (c : BitVec 32) (result : Option UIntPtr)
  | memcmp (mem : UIntPtr → BitVec 8) (a b : UIntPtr) (n : SizeT) (equal : Bool)
  | ntohl

/-- What a wrapper does, as long as no bytes of the input are skipped. -/
def LibcState.call {SymExpr : Type} [Backend SymExpr] (cfg : Config) (s : LibcState SymExpr) :
    LibcCall → LibcState SymExpr
  | .malloc size => s.mallocSymbolized size
  | .calloc nmemb size => s.callocSymbolized nmemb size
  | .mmap64 len => s.mmap64Symbolized len
  | .openFile path result => s.openSymbolized cfg path result
  | .read fildes buf nbyte result => s.readSymbolized .qsym fildes buf nbyte result
  | .lseek64 fd whence result => s.lseek64Symbolized fd whence result
  | .fopen pathname result => s.fopenSymbolized cfg pathname result
  | .fopen64 pathname result => s.fopen64Symbolized cfg pathname result
  | .fread fd ptr size nmemb result => s.freadSymbolized .qsym fd ptr size nmemb result
  | .fgets fd str n mem => s.fgetsSymbolized .qsym fd str n mem
  | .rewind fd => s.rewindSymbolized fd
  | .fseek fd offset result pos => s.fseekSymbolized fd offset result pos
  | .fseeko fd offset result pos => s.fseekoSymbolized fd offset result pos
  | .fseeko64 fd offset result pos => s.fseeko64Symbolized fd offset result pos
  | .getc fd result => s.getcSymbolized .qsym fd result
  | .fgetc fd result => s.fgetcSymbolized .qsym fd result
  | .ungetc fd result => s.ungetcSymbolized fd result
  | .memcpy leftToRight dest src n => s.memcpySymbolized leftToRight dest src n
  | .memset memory n => s.memsetSymbolized memory n
  | .memmove leftToRight dest src n => s.memmoveSymbolized leftToRight dest src n
  | .strncpy leftToRight mem dest src n => s.strncpySymbolized leftToRight mem dest src n
  | .strchr mem str c result => s.strchrSymbolized mem str c result
  | .memcmp mem a b n equal => s.memcmpSymbolized mem a b n equal
  | .ntohl => s.ntohlSymbolized

end Adacc
