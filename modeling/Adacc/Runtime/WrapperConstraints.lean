import Adacc.Runtime.CopyingWrappers

/-!
# The constraints that wrappers push

Wrappers push two kinds of constraints. `tryAlternative` says of a parameter that its expression is
the value that it has; `LibcCall.pins` lists the parameters of a wrapper for which it is called. The
wrappers for `strchr` and `memcmp` also push constraints on the bytes that the function has looked
at (`LibcState.scanConstraints`). `pathConstraints_call` says that there are no others.

All of them hold in the run that pushes them (`right_call`), if the shadow is consistent with memory
and the program has put the right expressions into the slots of the parameters.
-/

namespace Adacc

open ModularRange SmtLib

/-- A signed number that is passed on in a wider type and cut off again. -/
theorem setWidth_signExtend {w v u : ℕ} (x : BitVec w) (hu : u ≤ w) (hv : u ≤ v) :
    (x.signExtend v).setWidth u = x.setWidth u := by
  ext i hi
  rw [BitVec.getElem_setWidth, BitVec.getElem_setWidth, BitVec.getLsbD_signExtend,
    if_pos (hi.trans_le hu), decide_eq_true (hi.trans_le hv), Bool.true_and]

/-! ## Parameters -/

/-- A call of `tryAlternative`: the number of a parameter, its value as it is passed on, and its
size in bits. -/
structure Pin where
  index : UInt8
  value : BitVec 64
  bits : UInt8
  caller : LibcFunction

namespace LibcCall

/-- The calls of `tryAlternative` in a wrapper. -/
def pins : LibcCall → List Pin
  | .malloc size => [⟨0, size, 64, .malloc⟩]
  | .calloc nmemb size => [⟨0, nmemb, 64, .calloc⟩, ⟨1, size, 64, .calloc⟩]
  | .mmap64 len => [⟨1, len, 64, .mmap64⟩]
  | .read _ buf nbyte _ => [⟨1, buf, 64, .read⟩, ⟨2, nbyte, 64, .read⟩]
  | .fread _ ptr size nmemb _ =>
    [⟨0, ptr, 64, .fread⟩, ⟨1, size, 64, .fread⟩, ⟨2, nmemb, 64, .fread⟩]
  | .fgets _ str n _ => [⟨0, str, 64, .fgets⟩, ⟨1, n.toBitVec.signExtend 64, 32, .fgets⟩]
  | .fseek _ offset _ _ => [⟨1, offset, 64, .fseek⟩]
  | .fseeko _ offset _ _ => [⟨1, offset, 64, .fseeko⟩]
  | .fseeko64 _ offset _ _ => [⟨1, offset, 64, .fseeko64⟩]
  | .memcpy _ dest src n => [⟨0, dest, 64, .memcpy⟩, ⟨1, src, 64, .memcpy⟩, ⟨2, n, 64, .memcpy⟩]
  | .memset memory n => [⟨0, memory, 64, .memset⟩, ⟨2, n, 64, .memset⟩]
  | .memmove _ dest src n =>
    [⟨0, dest, 64, .memmove⟩, ⟨1, src, 64, .memmove⟩, ⟨2, n, 64, .memmove⟩]
  | .strncpy _ _ dest src n =>
    [⟨0, dest, 64, .strncpy⟩, ⟨1, src, 64, .strncpy⟩, ⟨2, n, 64, .strncpy⟩]
  | .strchr _ str c _ => [⟨0, str, 64, .strchr⟩, ⟨1, c.signExtend 64, 32, .strchr⟩]
  | .memcmp _ a b n _ => [⟨0, a, 64, .memcmp⟩, ⟨1, b, 64, .memcmp⟩, ⟨2, n, 64, .memcmp⟩]
  | _ => []

/-- The values of the parameters, in the types of the C library. Descriptors, streams and flags are
left out. -/
def argument : LibcCall → UInt8 → Option Value
  | .malloc size, 0 => some (.bv 64 size)
  | .calloc nmemb _, 0 => some (.bv 64 nmemb)
  | .calloc _ size, 1 => some (.bv 64 size)
  | .mmap64 len, 1 => some (.bv 64 len)
  | .read _ buf _ _, 1 => some (.bv 64 buf)
  | .read _ _ nbyte _, 2 => some (.bv 64 nbyte)
  | .fread _ ptr _ _ _, 0 => some (.bv 64 ptr)
  | .fread _ _ size _ _, 1 => some (.bv 64 size)
  | .fread _ _ _ nmemb _, 2 => some (.bv 64 nmemb)
  | .fgets _ str _ _, 0 => some (.bv 64 str)
  | .fgets _ _ n _, 1 => some (.bv 32 n.toBitVec)
  | .fseek _ offset _ _, 1 | .fseeko _ offset _ _, 1 | .fseeko64 _ offset _ _, 1 =>
    some (.bv 64 offset)
  | .memcpy _ dest _ _, 0 | .memmove _ dest _ _, 0 | .strncpy _ _ dest _ _, 0 =>
    some (.bv 64 dest)
  | .memcpy _ _ src _, 1 | .memmove _ _ src _, 1 | .strncpy _ _ _ src _, 1 => some (.bv 64 src)
  | .memcpy _ _ _ n, 2 | .memmove _ _ _ n, 2 | .strncpy _ _ _ _ n, 2 | .memset _ n, 2 =>
    some (.bv 64 n)
  | .memset memory _, 0 => some (.bv 64 memory)
  | .strchr _ str _ _, 0 => some (.bv 64 str)
  | .strchr _ _ c _, 1 => some (.bv 32 c)
  | .memcmp _ a _ _ _, 0 => some (.bv 64 a)
  | .memcmp _ _ b _ _, 1 => some (.bv 64 b)
  | .memcmp _ _ _ n _, 2 => some (.bv 64 n)
  | _, _ => none

/-- What `strchr` and `memcmp` answer in the memory that they are called in. -/
def AnsweredIn (mem : UIntPtr → BitVec 8) : LibcCall → Prop
  | .strchr mem' str c result => mem' = mem ∧ result = libcStrchr mem str c
  | .memcmp mem' a b n equal => mem' = mem ∧ equal = decide (libcMemcmp mem a b n = .eq)
  | _ => True

/-- `tryAlternative` gets the value of the parameter, in its size. -/
theorem argument_of_mem_pins {call : LibcCall} {pin : Pin} (h : pin ∈ call.pins) :
    0 < pin.bits.toNat ∧
      call.argument pin.index = some (.bv pin.bits.toNat (pin.value.setWidth pin.bits.toNat)) := by
  have hword : ∀ x : BitVec 64, x.setWidth (64 : UInt8).toNat = x := BitVec.setWidth_eq
  have hint : ∀ x : BitVec 32, (x.signExtend 64).setWidth (32 : UInt8).toNat = x := fun x ↦
    (setWidth_signExtend x (by decide) (by decide)).trans (BitVec.setWidth_eq x)
  cases call <;> simp only [pins, List.mem_cons, List.not_mem_nil, or_false] at h
  all_goals
    rcases h with rfl | rfl | rfl
    all_goals simp only [argument, hword, hint]; exact ⟨by decide, rfl⟩

end LibcCall

/-! ## Everything that is pushed -/

variable {SymExpr : Type} [Backend SymExpr]

open Backend

/-- What `tryAlternative` pushes. -/
def alternatives (value : BitVec 64) (bits : UInt8) (caller : LibcFunction)
    (valueExpr : Option SymExpr) : List (PathConstraint SymExpr) :=
  valueExpr.toList.map fun valueExpr ↦
    ⟨symBuildCompare .eq valueExpr (symBuildInteger value bits), true, caller⟩

/-- The expression that `strchr_symbolized` compares characters with. -/
def charExpr (c : BitVec 32) : Option SymExpr → SymExpr
  | none => symBuildInteger (c.signExtend 64) 8
  | some cExpr => symBuildTrunc cExpr 8

namespace LibcState

variable (s : LibcState SymExpr)

/-- What all calls of `tryAlternative` in a wrapper push. -/
def pinConstraints (call : LibcCall) : List (PathConstraint SymExpr) :=
  call.pins.flatMap fun pin ↦ alternatives pin.value pin.bits pin.caller (s.param pin.index)

/-- The constraint that `strchr_symbolized` pushes on the character at `a`. -/
def strchrConstraint (mem : UIntPtr → BitVec 8) (c : BitVec 32) (a : UIntPtr) :
    PathConstraint SymExpr :=
  ⟨symBuildCompare .distinct
      ((shadowAt s.pages a).getD (symBuildInteger ((mem a).signExtend 64) 8))
      (charExpr c (s.param 1)), true, .strchr⟩

/-- The expression that `memcmp_symbolized` builds for the equality of the bytes at position `i`. -/
def bytesEqual (mem : UIntPtr → BitVec 8) (a b : UIntPtr) (i : ℕ) : SymExpr :=
  symBuildCompare .eq (byteExpr mem s.pages (a + BitVec.ofNat 64 i))
    (byteExpr mem s.pages (b + BitVec.ofNat 64 i))

/-- What is pushed on the bytes that `strchr` and `memcmp` have looked at. -/
def scanConstraints : LibcCall → List (PathConstraint SymExpr)
  | .strchr mem str c result =>
    let length := result.elim (strlen mem str) (· - str)
    if isConcrete s.pages str length && (s.param 1).isNone then []
    else (List.range length.toNat).map fun i ↦ s.strchrConstraint mem c (str + BitVec.ofNat 64 i)
  | .memcmp mem a b n equal =>
    if isConcrete s.pages a n && isConcrete s.pages b n then []
    else
      [⟨(List.range (n.toNat - 1)).foldl
          (fun allEqual i ↦ symBuildBoolOp .and allEqual (s.bytesEqual mem a b (i + 1)))
          (s.bytesEqual mem a b 0), equal, .memcmp⟩]
  | _ => []

section Fields

@[simp] theorem pathConstraints_tryAlternative (value : BitVec 64) (bits : UInt8)
    (valueExpr : Option SymExpr) (caller : LibcFunction) :
    (s.tryAlternative value bits valueExpr caller).pathConstraints
      = s.pathConstraints ++ alternatives value bits caller valueExpr := by
  cases valueExpr with
  | none => exact (List.append_nil _).symm
  | some valueExpr => rfl

omit [Backend SymExpr] in
@[simp] theorem pathConstraints_setReturn (expr : Option SymExpr) :
    (s.setReturn expr).pathConstraints = s.pathConstraints := rfl

omit [Backend SymExpr] in
@[simp] theorem pathConstraints_rememberInputFile (cfg : Config) (path : CString) (fd : Int32) :
    (s.rememberInputFile cfg path fd).pathConstraints = s.pathConstraints := by
  unfold rememberInputFile
  dsimp only
  split_ifs <;> rfl

omit [Backend SymExpr] in
theorem pathConstraints_opened (cfg : Config) (path : CString) (result : Option Int32) :
    (s.openSymbolized cfg path result).pathConstraints = s.pathConstraints := by
  cases result with
  | none => rfl
  | some fd => exact pathConstraints_rememberInputFile _ cfg path fd

@[simp] theorem pathConstraints_fillBuffer (source : InputByteSource) (fd : Int32)
    (buf : UIntPtr) (length : SizeT) :
    (s.fillBuffer source fd buf length).pathConstraints = s.pathConstraints := by
  unfold fillBuffer
  split_ifs <;> rfl

omit [Backend SymExpr] in
theorem pathConstraints_lseek64Symbolized (fd whence : Int32) (result : Option (BitVec 64)) :
    (s.lseek64Symbolized fd whence result).pathConstraints = s.pathConstraints := by
  cases result with
  | none => rfl
  | some result =>
    unfold lseek64Symbolized
    dsimp only
    split_ifs <;> rfl

private theorem pathConstraints_readCharacter (source : InputByteSource) (fd : Int32)
    (result : Option (BitVec 8)) :
    (s.readCharacter source fd result).pathConstraints = s.pathConstraints := by
  cases result with
  | none => rfl
  | some c =>
    unfold readCharacter
    dsimp only
    split <;> rfl

private theorem pathConstraints_seekStream (caller : LibcFunction) (fd : Int32) (offset : BitVec 64)
    (result : Bool) (pos : Option (BitVec 64)) :
    (s.seekStream caller fd offset result pos).pathConstraints
      = s.pathConstraints ++ alternatives offset 64 caller (s.param 1) := by
  have h := s.pathConstraints_tryAlternative offset 64 (s.param 1) caller
  unfold seekStream
  dsimp only
  split_ifs
  · cases pos <;> exact h
  · exact h
  · exact h

end Fields

/-- The wrappers push these constraints and no others. -/
theorem pathConstraints_call (cfg : Config) (call : LibcCall) :
    (s.call cfg call).pathConstraints
      = s.pathConstraints ++ (s.pinConstraints call ++ s.scanConstraints call) := by
  unfold pinConstraints
  cases call with
  | malloc size => simp [call, mallocSymbolized, LibcCall.pins, scanConstraints]
  | calloc nmemb size => simp [call, callocSymbolized, LibcCall.pins, scanConstraints]
  | mmap64 len => simp [call, mmap64Symbolized, LibcCall.pins, scanConstraints]
  | openFile path result | fopen path result | fopen64 path result =>
    exact (pathConstraints_opened s cfg path result).trans (List.append_nil _).symm
  | read fildes buf nbyte result =>
    cases result <;> simp [call, readSymbolized, LibcCall.pins, scanConstraints]
  | lseek64 fd whence result =>
    exact (s.pathConstraints_lseek64Symbolized fd whence result).trans (List.append_nil _).symm
  | fread fd ptr size nmemb result =>
    simp [call, freadSymbolized, LibcCall.pins, scanConstraints]
  | fgets fd str n mem => simp [call, fgetsSymbolized, LibcCall.pins, scanConstraints]
  | rewind fd =>
    unfold call rewindSymbolized
    dsimp only
    split <;> exact (List.append_nil _).symm
  | fseek fd offset result pos | fseeko fd offset result pos | fseeko64 fd offset result pos =>
    refine (s.pathConstraints_seekStream _ fd offset result pos).trans ?_
    simp [LibcCall.pins, scanConstraints]
  | getc fd result | fgetc fd result =>
    exact (s.pathConstraints_readCharacter .qsym fd result).trans (List.append_nil _).symm
  | ungetc fd result =>
    unfold call ungetcSymbolized
    dsimp only
    split <;> exact (List.append_nil _).symm
  | memcpy leftToRight dest src n =>
    simp [call, memcpySymbolized, LibcCall.pins, scanConstraints]
  | memset memory n => simp [call, memsetSymbolized, LibcCall.pins, scanConstraints]
  | memmove leftToRight dest src n =>
    simp [call, memmoveSymbolized, LibcCall.pins, scanConstraints]
  | strncpy leftToRight mem dest src n =>
    simp only [call, strncpySymbolized, LibcCall.pins, scanConstraints]
    split_ifs <;> simp
  | strchr mem str c result =>
    simp only [call, strchrSymbolized, pages_setReturn, pages_tryAlternative, param_setReturn,
      param_tryAlternative, LibcCall.pins, scanConstraints]
    split
    · simp
    · cases hparam : s.param 1 <;> simp [strchrConstraint, charExpr, hparam]
  | memcmp mem a b n equal =>
    simp only [call, memcmpSymbolized, pages_setReturn, pages_tryAlternative,
      param_tryAlternative, LibcCall.pins, scanConstraints]
    split
    · simp
    · simp [bytesEqual]
  | ntohl => exact (List.append_nil _).symm

end LibcState

/-! ## What the constraints say -/

/-- Memory under an input that may be another one than that of the run: bytes without expression are
as they are in the run. -/
structure MemoryUnder (ρ : Input) (pages : ShadowPages SymExpr) (mem mem' : UIntPtr → BitVec 8) :
    Prop where
  consistent : Consistent ρ mem' pages
  unchanged : ∀ a, shadowAt pages a = none → mem' a = mem a

theorem MemoryUnder.self {ρ : Input} {pages : ShadowPages SymExpr} {mem : UIntPtr → BitVec 8}
    (h : Consistent ρ mem pages) : MemoryUnder ρ pages mem mem :=
  ⟨h, fun _ _ ↦ rfl⟩

namespace MemoryUnder

variable {ρ : Input} {pages : ShadowPages SymExpr} {mem mem' : UIntPtr → BitVec 8}

/-- The expression of a byte, where the constant may be built from the byte in any way. -/
theorem eval_getD (h : MemoryUnder ρ pages mem mem') (a : UIntPtr) {constant : SymExpr}
    (hconstant : eval ρ constant = .bv 8 (mem a)) :
    eval ρ ((shadowAt pages a).getD constant) = .bv 8 (mem' a) := by
  cases hs : shadowAt pages a with
  | none => rw [Option.getD_none, hconstant, h.unchanged a hs]
  | some e => exact h.consistent a e hs

theorem eval_byteExpr (h : MemoryUnder ρ pages mem mem') (a : UIntPtr) :
    eval ρ (byteExpr mem pages a) = .bv 8 (mem' a) :=
  h.eval_getD a (eval_constantByte ρ (mem a))

/-- Constants for characters, which are signed. -/
theorem eval_signedByte (x : BitVec 8) :
    eval ρ (symBuildInteger (x.signExtend 64) 8 : SymExpr) = .bv 8 x := by
  rw [eval_integer ρ _ 8 (by decide)]
  exact congrArg _ ((setWidth_signExtend x (by decide) (by decide)).trans (BitVec.setWidth_eq x))

end MemoryUnder

/-- A parameter under an input: its value is as it is in the run if it has no expression. -/
def ParameterUnder (ρ : Input) (param : Option SymExpr) (v v' : Value) : Prop :=
  match param with
  | none => v' = v
  | some e => eval ρ e = v'

theorem eval_alternative {ρ : Input} {e : SymExpr} {bits : UInt8} {x : BitVec bits.toNat}
    (hbits : 0 < bits.toNat) (he : eval ρ e = .bv bits.toNat x) (value : BitVec 64) :
    eval ρ (symBuildCompare .eq e (symBuildInteger value bits))
      = .bool (x == value.setWidth bits.toNat) :=
  eval_compare ρ .eq _ _ _ _ _ he (eval_integer ρ value bits hbits)

private theorem eval_charExpr {ρ : Input} {c c' : BitVec 32} {param : Option SymExpr}
    (h : ParameterUnder ρ param (.bv 32 c) (.bv 32 c')) :
    eval ρ (charExpr c param) = .bv 8 (c'.setWidth 8) := by
  cases param with
  | none =>
    obtain rfl := Value.bv_inj h
    rw [charExpr, eval_integer ρ _ 8 (by decide)]
    exact congrArg _ (setWidth_signExtend c' (by decide) (by decide))
  | some e => exact eval_trunc ρ e 8 32 c' h (by decide) (by decide)

theorem eval_strchrConstraint {s : LibcState SymExpr} {ρ : Input} {mem mem' : UIntPtr → BitVec 8}
    (hmem : MemoryUnder ρ s.pages mem mem') {c c' : BitVec 32}
    (hc : ParameterUnder ρ (s.param 1) (.bv 32 c) (.bv 32 c')) (a : UIntPtr) :
    eval ρ (s.strchrConstraint mem c a).constraint = .bool (mem' a != c'.setWidth 8) :=
  eval_compare ρ .distinct _ _ _ _ _ (hmem.eval_getD a (MemoryUnder.eval_signedByte (mem a)))
    (eval_charExpr hc)

theorem eval_bytesEqual {s : LibcState SymExpr} {ρ : Input} {mem mem' : UIntPtr → BitVec 8}
    (hmem : MemoryUnder ρ s.pages mem mem') (a b : UIntPtr) (i : ℕ) :
    eval ρ (s.bytesEqual mem a b i)
      = .bool (mem' (a + BitVec.ofNat 64 i) == mem' (b + BitVec.ofNat 64 i)) :=
  eval_compare ρ .eq _ _ _ _ _ (hmem.eval_byteExpr _) (hmem.eval_byteExpr _)

/-- A conjunction that is built from the first conjunct on. -/
theorem eval_conjunction {ρ : Input} {f : ℕ → SymExpr} {g : ℕ → Bool}
    (h : ∀ i, eval ρ (f i) = .bool (g i)) (n : ℕ) :
    eval ρ ((List.range n).foldl (fun all i ↦ symBuildBoolOp .and all (f (i + 1))) (f 0))
      = .bool ((List.range (n + 1)).all g) := by
  induction n with
  | zero => simpa using h 0
  | succ n ih =>
    rw [List.range_succ, List.foldl_append, List.foldl_cons, List.foldl_nil,
      eval_boolOp ρ .and _ _ _ _ ih (h (n + 1))]
    simp [BoolOp.denote, List.range_succ, Bool.and_assoc]

/-! ## All constraints hold -/

/-- The expressions of the parameters are null or evaluate to the arguments. -/
def LibcCall.Described (ρ : Input) (s : LibcState SymExpr) (call : LibcCall) : Prop :=
  ∀ i v, call.argument i = some v → ∀ e, s.param i = some e → eval ρ e = v

/-- A comparison of bit vectors of one width, or a conjunction of such comparisons. -/
inductive ComparesEqualWidths : SymExpr → Prop
  | comparison {op : CmpOp} {a b : SymExpr} {w : ℕ} (ha : HasBits a w) (hb : HasBits b w) :
      ComparesEqualWidths (symBuildCompare op a b)
  | and {a b : SymExpr} (ha : ComparesEqualWidths a) (hb : ComparesEqualWidths b) :
      ComparesEqualWidths (symBuildBoolOp .and a b)

/-- What a constraint should be that is pushed in a run on the input `ρ`. -/
structure PathConstraint.Right (ρ : Input) (c : PathConstraint SymExpr) : Prop where
  sorted : ComparesEqualWidths c.constraint
  holds : eval ρ c.constraint = .bool c.taken

section Right

variable {ρ : Input} {mem : UIntPtr → BitVec 8} {s : LibcState SymExpr} {call : LibcCall}

private theorem right_of_mem_pinConstraints (hdescribed : call.Described ρ s)
    {c : PathConstraint SymExpr} (hc : c ∈ s.pinConstraints call) : c.Right ρ := by
  obtain ⟨pin, hpin, hc⟩ := List.mem_flatMap.mp hc
  obtain ⟨e, he, rfl⟩ := List.mem_map.mp hc
  obtain ⟨hbits, hargument⟩ := LibcCall.argument_of_mem_pins hpin
  have heval := hdescribed _ _ hargument e (Option.mem_toList.mp he)
  refine ⟨.comparison (.of_eval heval) (.of_eval (eval_integer ρ pin.value pin.bits hbits)), ?_⟩
  rw [eval_alternative hbits heval, beq_self_eq_true]

private theorem sorted_conjunction (f : ℕ → SymExpr) (h : ∀ i, ComparesEqualWidths (f i)) (n : ℕ) :
    ComparesEqualWidths
      ((List.range n).foldl (fun all i ↦ symBuildBoolOp .and all (f (i + 1))) (f 0)) := by
  induction n with
  | zero => exact h 0
  | succ n ih =>
    rw [List.range_succ, List.foldl_append]
    exact .and ih (h (n + 1))

/-- Before the place where `strchr` stops there is no such character. -/
theorem ne_of_lt_strchr {str : UIntPtr} {c : BitVec 32} {i : ℕ}
    (hi : i < ((libcStrchr mem str c).elim (strlen mem str) (· - str)).toNat) :
    mem (str + BitVec.ofNat 64 i) ≠ c.setWidth 8 := by
  cases h : libcStrchr mem str c with
  | none =>
    rw [h, Option.elim_none, toNat_strlen] at hi
    have hle := strlenLoop_le mem (2 ^ 64 - 1) str
    exact strchrLoop_eq_none_iff.mp h i (by omega) fun j hj ↦
      ne_zero_of_lt_strlenLoop (hj.trans hi)
  | some a =>
    obtain ⟨k, hk, rfl, -, hbefore⟩ := strchrLoop_eq_some_iff.mp h
    rw [h, Option.elim_some, toNat_add_ofNat_sub str (by omega)] at hi
    exact (hbefore i hi).1

omit [Backend SymExpr] in
/-- A range that `memcmp` compares symbolically is not empty. -/
theorem toNat_pred_add_one {pages : ShadowPages SymExpr} {a b : UIntPtr} {n : SizeT}
    (h : ¬ (isConcrete pages a n && isConcrete pages b n) = true) :
    n.toNat - 1 + 1 = n.toNat := by
  refine Nat.sub_add_cancel (Nat.pos_of_ne_zero fun h0 ↦ h ?_)
  obtain rfl : n = 0 := BitVec.eq_of_toNat_eq h0
  rw [isConcrete_zero, isConcrete_zero]
  rfl

private theorem right_of_mem_scanConstraints (hs : Consistent ρ mem s.pages)
    (hanswer : call.AnsweredIn mem) (hdescribed : call.Described ρ s) {c : PathConstraint SymExpr}
    (hc : c ∈ s.scanConstraints call) : c.Right ρ := by
  have hmem := MemoryUnder.self hs
  cases call with
  | strchr mem' str ch result =>
    obtain ⟨rfl, rfl⟩ := hanswer
    have hchar : ParameterUnder ρ (s.param 1) (.bv 32 ch) (.bv 32 ch) := by
      cases hparam : s.param 1 with
      | none => rfl
      | some e => exact hdescribed 1 _ rfl e hparam
    dsimp only [LibcState.scanConstraints] at hc
    split at hc
    · exact absurd hc List.not_mem_nil
    · obtain ⟨i, hi, rfl⟩ := List.mem_map.mp hc
      refine ⟨.comparison (.of_eval (hmem.eval_getD _ (MemoryUnder.eval_signedByte _)))
        (.of_eval (eval_charExpr hchar)), ?_⟩
      rw [eval_strchrConstraint hmem hchar, bne_iff_ne.mpr (ne_of_lt_strchr (List.mem_range.mp hi))]
      rfl
  | memcmp mem' a b n equal =>
    obtain ⟨rfl, rfl⟩ := hanswer
    dsimp only [LibcState.scanConstraints] at hc
    split at hc
    · exact absurd hc List.not_mem_nil
    · next hsymbolic =>
      obtain rfl := List.mem_singleton.mp hc
      have hsorted : ∀ i, ComparesEqualWidths (s.bytesEqual mem' a b i) := fun i ↦
        .comparison (.of_eval (hmem.eval_byteExpr _)) (.of_eval (hmem.eval_byteExpr _))
      refine ⟨sorted_conjunction (s.bytesEqual mem' a b) hsorted _, ?_⟩
      rw [eval_conjunction (eval_bytesEqual hmem a b), toNat_pred_add_one hsymbolic]
      congr 1
      rw [Bool.eq_iff_iff, List.all_eq_true, decide_eq_true_iff, libcMemcmp_eq_iff]
      simp only [List.mem_range, beq_iff_eq]
  | _ => exact absurd hc List.not_mem_nil

/-- Every constraint that a wrapper pushes compares expressions of one width and holds in the
run. -/
theorem right_call (cfg : Config) (hs : Consistent ρ mem s.pages) (hanswer : call.AnsweredIn mem)
    (hdescribed : call.Described ρ s) :
    ∃ pushed, (s.call cfg call).pathConstraints = s.pathConstraints ++ pushed ∧
      ∀ c ∈ pushed, c.Right ρ := by
  refine ⟨_, s.pathConstraints_call cfg call, fun c hc ↦ ?_⟩
  rcases List.mem_append.mp hc with hc | hc
  · exact right_of_mem_pinConstraints hdescribed hc
  · exact right_of_mem_scanConstraints hs hanswer hdescribed hc

end Right

/-- `memcmp` of the symbolic byte of `secondPageState` with a concrete one, which is equal. -/
theorem right_call_memcmp :
    ∃ pushed,
      (CopyCall.secondPageState.call standardInput
          (.memcmp (fun _ ↦ 0) 4096 0 1 true)).pathConstraints
        = CopyCall.secondPageState.pathConstraints ++ pushed ∧
      ∀ c ∈ pushed, c.Right fun _ ↦ 0 :=
  right_call standardInput consistent_secondPageShadow
    (⟨rfl, by decide⟩ : (LibcCall.memcmp (fun _ ↦ 0) 4096 0 1 true).AnsweredIn fun _ ↦ 0)
    fun i v _ e he ↦ absurd he (Option.not_mem_none e)

end Adacc
