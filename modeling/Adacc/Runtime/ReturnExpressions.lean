import Adacc.Runtime.ByteExtraction
import Adacc.Runtime.MemoryEvents
import Adacc.Runtime.SeekOffsets
import Adacc.Runtime.StreamReads

/-!
# Expressions for results

Every wrapper leaves an expression for its result in the return slot, or null. Three kinds of
expressions occur: that of a parameter, a byte of the input, and the swapped bytes of a parameter.
`LibcCall.returnExpression` says which of them it is.

Some wrappers choose before they know the result. `fgets` may return null instead of its buffer,
and `ungetc` may fail, or return its parameter as an unsigned character. `getc` returns the next
byte of the stream, which may have been pushed back and be another one than that of the input.
`returns_iff` says that nothing else is wrong.

The stream on which the program reads is given by the bytes that it will deliver.
-/

namespace Adacc

open ByteOrder ModularRange SmtLib Backend

/-! ## The return slot -/

/-- What a wrapper leaves in the return slot. -/
def LibcCall.returnExpression {SymExpr : Type} [Backend SymExpr] (s : LibcState SymExpr) :
    LibcCall → Option SymExpr
  -- `SEEK_SET`
  | .lseek64 _ whence result => if result.isSome ∧ whence = 0 then s.param 1 else none
  | .fgets _ _ _ _ | .ungetc _ _ | .memcpy _ _ _ _ | .memset _ _ | .memmove _ _ _ _ => s.param 0
  | .getc fd result | .fgetc fd result =>
    if result.isSome ∧ fd = s.inputFileDescriptor then
      some (symBuildZExt (symGetInputByte s.inputOffset) 24)
    else none
  | .ntohl => (s.param 0).map symBuildBswap
  | _ => none

namespace LibcState

section Slots

variable {SymExpr : Type} (s : LibcState SymExpr)

@[simp] theorem returnValue_setReturn (expr : Option SymExpr) :
    (s.setReturn expr).slots.returnValue = expr := rfl

@[simp] theorem slots_rememberInputFile (cfg : Config) (path : CString) (fd : Int32) :
    (s.rememberInputFile cfg path fd).slots = s.slots := by
  unfold rememberInputFile
  dsimp only
  split_ifs <;> rfl

private theorem returnValue_openSymbolized (cfg : Config) (path : CString) (result : Option Int32) :
    (s.openSymbolized cfg path result).slots.returnValue = none := by
  cases result with
  | none => rfl
  | some fd => simp [openSymbolized]

variable [Backend SymExpr]

@[simp] theorem slots_fillBuffer (source : InputByteSource) (fd : Int32) (buf : UIntPtr)
    (length : SizeT) : (s.fillBuffer source fd buf length).slots = s.slots := by
  unfold fillBuffer
  split_ifs <;> rfl

private theorem returnValue_readCharacter (fd : Int32) (result : Option (BitVec 8)) :
    (s.readCharacter .qsym fd result).slots.returnValue
      = LibcCall.returnExpression s (.getc fd result) := by
  unfold readCharacter
  cases result with
  | none => rfl
  | some c =>
    by_cases hfd : fd = s.inputFileDescriptor <;>
      simp [LibcCall.returnExpression, hfd, InputByteSource.symGetInputByte]

private theorem returnValue_seekStream (caller : LibcFunction) (fd : Int32) (offset : BitVec 64)
    (result : Bool) (pos : Option (BitVec 64)) :
    (s.seekStream caller fd offset result pos).slots.returnValue = none := by
  unfold seekStream
  dsimp only
  split_ifs
  · cases pos <;> rfl
  · rfl
  · rfl

/-- Every wrapper sets the slot. -/
theorem returnValue_call (cfg : Config) (call : LibcCall) :
    (s.call cfg call).slots.returnValue = call.returnExpression s := by
  cases call with
  | malloc size | calloc nmemb size | mmap64 len | ntohl => rfl
  | openFile path result | fopen path result | fopen64 path result =>
    exact s.returnValue_openSymbolized cfg path result
  | read fildes buf nbyte result =>
    cases result <;> simp [call, readSymbolized, LibcCall.returnExpression]
  | lseek64 fd whence result =>
    cases result with
    | none => rfl
    | some result =>
      simp only [call, lseek64Symbolized, LibcCall.returnExpression, Option.isSome_some, true_and]
      split_ifs <;> rfl
  | fread fd ptr size nmemb result => simp [call, freadSymbolized, LibcCall.returnExpression]
  | fgets fd str n mem => simp [call, fgetsSymbolized, LibcCall.returnExpression]
  | rewind fd =>
    unfold call rewindSymbolized
    dsimp only
    split <;> rfl
  | fseek fd offset result pos | fseeko fd offset result pos | fseeko64 fd offset result pos =>
    exact s.returnValue_seekStream _ fd offset result pos
  | getc fd result | fgetc fd result => exact s.returnValue_readCharacter fd result
  | ungetc fd result =>
    unfold call ungetcSymbolized
    dsimp only
    split <;> rfl
  | memcpy leftToRight dest src n => simp [call, memcpySymbolized, LibcCall.returnExpression]
  | memset memory n => simp [call, memsetSymbolized, LibcCall.returnExpression]
  | memmove leftToRight dest src n => simp [call, memmoveSymbolized, LibcCall.returnExpression]
  | strncpy leftToRight mem dest src n =>
    simp only [call, strncpySymbolized, LibcCall.returnExpression]
    split_ifs <;> rfl
  | strchr mem str c result =>
    simp only [call, strchrSymbolized, LibcCall.returnExpression]
    split_ifs <;> rfl
  | memcmp mem a b n equal =>
    simp only [call, memcmpSymbolized, LibcCall.returnExpression]
    split_ifs <;> rfl

end Slots

end LibcState

/-! ## The library -/

/-- A call of a wrapper, with what the library is free to answer. `fread` may stop early, `fgets`,
`getc`, `fgetc` and `ungetc` may fail at any time, and `fgets` finds memory as it is afterwards.
After seeking the stream delivers other bytes. -/
inductive Request
  | malloc (size : SizeT) (result : UIntPtr)
  | calloc (nmemb size : SizeT) (result : UIntPtr)
  | mmap64 (len : SizeT) (result : UIntPtr)
  | mmap (len : SizeT) (result : UIntPtr)
  | openFile (path : CString) (result : Option Int32)
  | read (fildes : Int32) (buf : UIntPtr) (nbyte : SizeT) (result : Option SizeT)
  | lseek64 (fd : Int32) (offset : BitVec 64) (whence : Int32) (result : Option (BitVec 64))
  | lseek (fd : Int32) (offset : BitVec 32) (whence : Int32) (result : Option (BitVec 64))
  | fopen (pathname : CString) (result : Option (UIntPtr × Int32))
  | fopen64 (pathname : CString) (result : Option (UIntPtr × Int32))
  | fread (ptr : UIntPtr) (size nmemb : SizeT) (limit : ℕ)
  | fgets (str : UIntPtr) (n : Int32) (failed : Bool) (mem : UIntPtr → BitVec 8)
  | rewind (next : List (BitVec 8))
  | fseek (offset : BitVec 64) (result : Option (List (BitVec 8))) (pos : Option (BitVec 64))
  | fseeko (offset : BitVec 64) (result : Option (List (BitVec 8))) (pos : Option (BitVec 64))
  | fseeko64 (offset : BitVec 64) (result : Option (List (BitVec 8))) (pos : Option (BitVec 64))
  | getc (failed : Bool)
  | fgetc (failed : Bool)
  | ungetc (c : BitVec 32) (accepted : Bool)
  | memcpy (leftToRight : Bool) (dest src : UIntPtr) (n : SizeT)
  | memset (memory : UIntPtr) (n : SizeT)
  | memmove (leftToRight : Bool) (dest src : UIntPtr) (n : SizeT)
  | strncpy (leftToRight : Bool) (mem : UIntPtr → BitVec 8) (dest src : UIntPtr) (n : SizeT)
  | strchr (mem : UIntPtr → BitVec 8) (str : UIntPtr) (c : BitVec 32)
  | memcmp (mem : UIntPtr → BitVec 8) (a b : UIntPtr) (n : SizeT) (result : BitVec 32)
  | ntohl (netlong : BitVec 32)

/-- What `lseek64` answers. `SEEK_SET` leads to the offset itself. -/
def seekAnswer (offset : BitVec 64) (whence : Int32) (result : Option (BitVec 64)) :
    Option (BitVec 64) :=
  if whence = 0 then result.map fun _ ↦ offset else result

/-- `fgets` succeeds if it has something to store. -/
def FgetsSucceeds (stream : List (BitVec 8)) (n : Int32) (failed : Bool) : Prop :=
  failed = false ∧ (takeLine (n.toInt.toNat - 1) stream ≠ [] ∨ n = 1)

instance (stream : List (BitVec 8)) (n : Int32) (failed : Bool) :
    Decidable (FgetsSucceeds stream n failed) :=
  inferInstanceAs (Decidable (_ ∧ _))

/-- `ungetc` pushes the character back, if it is one. -/
def pushesBack (c : BitVec 32) (accepted : Bool) : Bool := accepted && c != -1

/-- What `getc` delivers. -/
def nextCharacter (stream : List (BitVec 8)) (failed : Bool) : Option (BitVec 8) :=
  if failed then none else stream.head?

/-- `ntohl` on a little-endian machine -/
def libcNtohl (netlong : BitVec 32) : BitVec 32 := BitVec.ofNat 32 (reverseBytes 4 netlong.toNat)

namespace Request

/-- The bytes that `fread` takes from the stream. -/
def freadCount (stream : List (BitVec 8)) (size nmemb : SizeT) (limit : ℕ) : ℕ :=
  min limit (min stream.length (size.toNat * nmemb.toNat))

/-- The wrapper, with what the library answers on a stream with the descriptor `fd`. -/
def wrapper (fd : Int32) (stream : List (BitVec 8)) : Request → LibcCall
  | .malloc size _ => .malloc size
  | .calloc nmemb size _ => .calloc nmemb size
  | .mmap64 len _ | .mmap len _ => .mmap64 len
  | .openFile path result => .openFile path result
  | .read fildes buf nbyte result => .read fildes buf nbyte result
  | .lseek64 fd offset whence result => .lseek64 fd whence (seekAnswer offset whence result)
  | .lseek fd offset whence result =>
    .lseek64 fd whence (seekAnswer (offset.setWidth 64) whence result)
  | .fopen pathname result => .fopen pathname (result.map Prod.snd)
  | .fopen64 pathname result => .fopen64 pathname (result.map Prod.snd)
  | .fread ptr size nmemb limit =>
    .fread fd ptr size nmemb
      (BitVec.ofNat 64 (freadCount stream size nmemb limit / size.toNat))
  | .fgets str n _ mem => .fgets fd str n mem
  | .rewind _ => .rewind fd
  | .fseek offset result pos => .fseek fd offset result.isSome pos
  | .fseeko offset result pos => .fseeko fd offset result.isSome pos
  | .fseeko64 offset result pos => .fseeko64 fd offset result.isSome pos
  | .getc failed => .getc fd (nextCharacter stream failed)
  | .fgetc failed => .fgetc fd (nextCharacter stream failed)
  | .ungetc c accepted => .ungetc fd (pushesBack c accepted)
  | .memcpy leftToRight dest src n => .memcpy leftToRight dest src n
  | .memset memory n => .memset memory n
  | .memmove leftToRight dest src n => .memmove leftToRight dest src n
  | .strncpy leftToRight mem dest src n => .strncpy leftToRight mem dest src n
  | .strchr mem str c => .strchr mem str c (libcStrchr mem str c)
  | .memcmp mem a b n result => .memcmp mem a b n (result == 0)
  | .ntohl _ => .ntohl

/-- What the stream delivers after the call. -/
def streamAfter (stream : List (BitVec 8)) : Request → List (BitVec 8)
  | .fread _ size nmemb limit => stream.drop (freadCount stream size nmemb limit)
  | .fgets _ n _ _ => stream.drop (takeLine (n.toInt.toNat - 1) stream).length
  | .rewind next => next
  | .fseek _ result _ | .fseeko _ result _ | .fseeko64 _ result _ => result.getD stream
  | .getc failed | .fgetc failed => if failed then stream else stream.tail
  | .ungetc c accepted => if pushesBack c accepted then c.setWidth 8 :: stream else stream
  | _ => stream

/-- What the wrapper returns. -/
def returned (fd inputFileDescriptor : Int32) (stream : List (BitVec 8)) : Request → Option Value
  | .malloc _ result | .calloc _ _ result | .mmap64 _ result | .mmap _ result =>
    some (.bv 64 result)
  | .openFile _ result => some (.bv 32 (result.getD (-1)).toBitVec)
  | .read _ _ _ result => some (.bv 64 (result.getD (-1)))
  | .lseek64 _ offset whence result =>
    some (.bv 64 ((seekAnswer offset whence result).getD (-1)))
  | .lseek _ offset whence result =>
    let result := (seekAnswer (offset.setWidth 64) whence result).getD (-1)
    some (.bv 32 (if result = (result.setWidth 32).setWidth 64 then result.setWidth 32 else -1))
  | .fopen _ result | .fopen64 _ result => some (.bv 64 ((result.map Prod.fst).getD 0))
  | .fread _ size nmemb limit =>
    some (.bv 64 (BitVec.ofNat 64 (freadCount stream size nmemb limit / size.toNat)))
  | .fgets str n failed _ => some (.bv 64 (if FgetsSucceeds stream n failed then str else 0))
  | .rewind _ => none
  | .fseek _ result pos | .fseeko _ result pos | .fseeko64 _ result pos =>
    some (.bv 32 (if result.isSome ∧ (fd = inputFileDescriptor → pos.isSome) then 0 else -1))
  | .getc failed | .fgetc failed =>
    some (.bv 32 ((nextCharacter stream failed).elim (-1) (·.setWidth 32)))
  | .ungetc c accepted =>
    some (.bv 32 (if pushesBack c accepted then (c.setWidth 8).setWidth 32 else -1))
  | .memcpy _ dest _ _ | .memmove _ dest _ _ | .strncpy _ _ dest _ _ => some (.bv 64 dest)
  | .memset memory _ => some (.bv 64 memory)
  | .strchr mem str c => some (.bv 64 ((libcStrchr mem str c).getD 0))
  | .memcmp _ _ _ _ result => some (.bv 32 result)
  | .ntohl netlong => some (.bv 32 (libcNtohl netlong))

/-- The parameters whose expressions are used for the result. -/
def argument : Request → UInt8 → Option Value
  | .lseek64 _ offset _ _, 1 => some (.bv 64 offset)
  | .lseek _ offset _ _, 1 => some (.bv 32 offset)
  | .fgets str _ _ _, 0 => some (.bv 64 str)
  | .ungetc c _, 0 => some (.bv 32 c)
  | .memcpy _ dest _ _, 0 | .memmove _ dest _ _, 0 => some (.bv 64 dest)
  | .memset memory _, 0 => some (.bv 64 memory)
  | .ntohl netlong, 0 => some (.bv 32 netlong)
  | _, _ => none

end Request

/-! ## The machine -/

/-- A stream, by the bytes that it will deliver, and the runtime library. -/
structure WrapperState (SymExpr : Type) where
  stream : List (BitVec 8)
  libc : LibcState SymExpr

/-- What a program does next: it fills the slots of the parameters and calls a wrapper. In between,
instrumented code changes shadow memory, and others may change the file. -/
inductive WrapperEvent (SymExpr : Type)
  | call (slots : Slots SymExpr) (request : Request)
  | compute (pages : ShadowPages SymExpr) (stream : List (BitVec 8))

/-- What a wrapper returns, and the expression in the return slot. -/
structure Returned (SymExpr : Type) where
  expr : Option SymExpr
  value : Option Value

section Machine

variable {SymExpr : Type} [Backend SymExpr]

/-- The expression is null or evaluates to the value. -/
def Returned.Right (ρ : Input) (r : Returned SymExpr) : Prop :=
  ∀ e, r.expr = some e → r.value = some (eval ρ e)

namespace WrapperState

/-- The state in which the wrapper starts. -/
def enter (slots : Slots SymExpr) (s : WrapperState SymExpr) : LibcState SymExpr :=
  { s.libc with slots }

/-- One step of a program, on a stream with the descriptor `fd`. Nothing is answered where no
wrapper is called. -/
def step (cfg : Config) (fd : Int32) (s : WrapperState SymExpr) :
    WrapperEvent SymExpr → WrapperState SymExpr × Option (Returned SymExpr)
  | .call slots request =>
    let libc := (s.enter slots).call cfg (request.wrapper fd s.stream)
    (⟨request.streamAfter s.stream, libc⟩,
      some ⟨libc.slots.returnValue, request.returned fd s.libc.inputFileDescriptor s.stream⟩)
  | .compute pages stream => (⟨stream, { s.libc with pages }⟩, none)

end WrapperState

/-- The expressions of the parameters are null or evaluate to the arguments. -/
def WrapperEvent.Described (ρ : Input) : WrapperEvent SymExpr → Prop
  | .call slots request => ∀ i v, request.argument i = some v →
      ∀ e, slots.symGetParameterExpression i = some e → eval ρ e = v
  | .compute _ _ => True

/-- The wrapper does not mistake the result. A buffer with an expression is returned by `fgets`; a
character with an expression is pushed back, and is one, or is `EOF`; the next character of the
stream is that of the input at the position that the wrappers have remembered. -/
def WrapperEvent.Foreseen (ρ : Input) (fd : Int32) (s : WrapperState SymExpr) :
    WrapperEvent SymExpr → Prop
  | .call slots (.fgets str n failed _) =>
    slots.symGetParameterExpression 0 = none ∨ FgetsSucceeds s.stream n failed ∨ str = 0
  | .call slots (.ungetc c accepted) =>
    slots.symGetParameterExpression 0 = none ∨ c = -1 ∨ accepted = true ∧ c.toNat < 256
  | .call _ (.getc failed) | .call _ (.fgetc failed) =>
    fd = s.libc.inputFileDescriptor → ∀ c, nextCharacter s.stream failed = some c →
      ρ s.libc.inputOffset.toNat = c
  | _ => True

/-! ## One step -/

section Step

variable {ρ : Input} {fd : Int32} {s : WrapperState SymExpr} {slots : Slots SymExpr}

/-- A parameter's expression is right if its argument is returned. -/
theorem right_param_iff {i : UInt8} {v v' : Value}
    (h : ∀ e, slots.symGetParameterExpression i = some e → eval ρ e = v) :
    (⟨slots.symGetParameterExpression i, some v'⟩ : Returned SymExpr).Right ρ ↔
      slots.symGetParameterExpression i = none ∨ v' = v := by
  unfold Returned.Right
  cases hparam : slots.symGetParameterExpression i with
  | none => exact iff_of_true (fun e he ↦ nomatch he) (.inl rfl)
  | some e =>
    have heval := h e hparam
    constructor
    · intro hright
      exact .inr ((Option.some.inj (hright e rfl)).trans heval)
    · rintro (hnone | rfl) e' he'
      · cases hnone
      · rw [← Option.some.inj he', heval]

/-- Nothing is wrong with null. -/
theorem right_none (value : Option Value) : (⟨none, value⟩ : Returned SymExpr).Right ρ :=
  fun _ he ↦ nomatch he

/-- A character that is pushed back is returned as an unsigned character. -/
theorem pushedBack_eq_iff (c : BitVec 32) (accepted : Bool) :
    (if pushesBack c accepted then (c.setWidth 8).setWidth 32 else -1) = c ↔
      c = -1 ∨ accepted = true ∧ c.toNat < 256 := by
  have hcut : (c.setWidth 8).setWidth 32 = c ↔ c.toNat < 256 := by
    rw [← BitVec.toNat_inj, BitVec.toNat_setWidth, BitVec.toNat_setWidth]
    omega
  by_cases heof : c = -1
  · subst heof
    exact iff_of_true (if_neg (by simp [pushesBack])) (.inl rfl)
  · rw [or_iff_right heof]
    cases accepted with
    | false => exact iff_of_false (fun h ↦ heof h.symm) fun h ↦ Bool.false_ne_true h.1
    | true =>
      have hpushed : pushesBack c true = true := bne_iff_ne.mpr heof
      rw [if_pos hpushed, hcut, eq_self_iff_true, true_and]

/-- An offset of 32 bits comes back from `lseek`. -/
theorem setWidth_setWidth_offset (offset : BitVec 32) :
    (offset.setWidth 64).setWidth 32 = offset := by
  rw [← BitVec.toNat_inj, BitVec.toNat_setWidth, BitVec.toNat_setWidth]
  omega

/-- What `lseek64` makes of the answer does not matter, as long as the offset becomes the
argument. -/
theorem right_lseek64 (fd' whence : Int32) {offset : BitVec 64} (result : Option (BitVec 64))
    {w : ℕ} {x : BitVec w} (value : BitVec 64 → BitVec w) (hvalue : value offset = x)
    (h : ∀ e, slots.symGetParameterExpression 1 = some e → eval ρ e = .bv w x) :
    (⟨(LibcCall.lseek64 fd' whence (seekAnswer offset whence result)).returnExpression
          (s.enter slots),
        some (.bv w (value ((seekAnswer offset whence result).getD (-1))))⟩
      : Returned SymExpr).Right ρ := by
  dsimp only [LibcCall.returnExpression]
  split
  · next hset =>
    obtain ⟨hsome, rfl⟩ := hset
    cases result with
    | none => cases hsome
    | some result => exact (right_param_iff h).mpr (.inr (by rw [← hvalue]; rfl))
  · exact right_none _

private theorem right_getc_iff (failed : Bool) :
    (⟨(LibcCall.getc fd (nextCharacter s.stream failed)).returnExpression (s.enter slots),
        some (.bv 32 ((nextCharacter s.stream failed).elim (-1) (·.setWidth 32)))⟩
      : Returned SymExpr).Right ρ ↔
      (fd = s.libc.inputFileDescriptor → ∀ c, nextCharacter s.stream failed = some c →
        ρ s.libc.inputOffset.toNat = c) := by
  dsimp only [LibcCall.returnExpression]
  split
  · next hinput =>
    obtain ⟨hsome, hfd⟩ := hinput
    obtain ⟨c, hc⟩ := Option.isSome_iff_exists.mp hsome
    have heval : eval ρ (symBuildZExt (symGetInputByte (s.enter slots).inputOffset) 24 : SymExpr)
        = .bv 32 ((ρ s.libc.inputOffset.toNat).setWidth 32) :=
      eval_zext ρ _ 24 8 _ (eval_inputByte ρ _)
    rw [hc, Option.elim_some]
    constructor
    · intro hright _ c' hc'
      have hbyte := Value.bv_inj ((Option.some.inj (hright _ rfl)).trans heval)
      have hcut := congrArg (·.setWidth 8) hbyte
      rw [BitVec.setWidth_setWidth_of_le _ (by decide),
        BitVec.setWidth_setWidth_of_le _ (by decide), BitVec.setWidth_eq,
        BitVec.setWidth_eq] at hcut
      rw [← Option.some.inj hc', hcut]
    · intro hbyte e he
      rw [← Option.some.inj he, heval, hbyte hfd c rfl]
  · next hother =>
    refine iff_of_true (right_none _) fun hfd c hc ↦ absurd ⟨?_, hfd⟩ hother
    rw [hc, Option.isSome_some]

private theorem right_ntohl {netlong : BitVec 32}
    (h : ∀ e, slots.symGetParameterExpression 0 = some e → eval ρ e = .bv 32 netlong) :
    (⟨LibcCall.ntohl.returnExpression (s.enter slots), some (.bv 32 (libcNtohl netlong))⟩
      : Returned SymExpr).Right ρ := by
  intro e he
  obtain ⟨e', he', rfl⟩ := Option.map_eq_some_iff.mp he
  have heval := h e' he'
  have hbits : HasBits e' (8 * 4) := .of_eval heval
  rw [eval_symBuildBswap hbits (by decide) (by decide) netlong.isLt (v := netlong.toNat) ?_]
  · rfl
  · rw [heval, Value.ofNat, BitVec.ofNat_toNat, BitVec.setWidth_eq]

/-- One call. -/
theorem right_call_iff (request : Request) (h : (WrapperEvent.call slots request).Described ρ) :
    (⟨(request.wrapper fd s.stream).returnExpression (s.enter slots),
        request.returned fd s.libc.inputFileDescriptor s.stream⟩ : Returned SymExpr).Right ρ ↔
      (WrapperEvent.call slots request).Foreseen ρ fd s := by
  cases request with
  | lseek64 fd' offset whence result =>
    exact iff_of_true (right_lseek64 fd' whence result id rfl (h 1 _ rfl)) trivial
  | lseek fd' offset whence result =>
    refine iff_of_true (right_lseek64 fd' whence result (fun result ↦
      if result = (result.setWidth 32).setWidth 64 then result.setWidth 32 else -1) ?_
      (h 1 _ rfl)) trivial
    rw [setWidth_setWidth_offset, if_pos rfl]
  | fgets str n failed mem =>
    refine (right_param_iff (h 0 _ rfl)).trans (or_congr_right ?_)
    split
    · next hsucceeds => exact iff_of_true rfl (.inl hsucceeds)
    · next hfails =>
      rw [or_iff_right hfails]
      exact ⟨fun heq ↦ (Value.bv_inj heq).symm, fun heq ↦ congrArg _ heq.symm⟩
  | ungetc c accepted =>
    refine (right_param_iff (h 0 _ rfl)).trans (or_congr_right ?_)
    rw [← pushedBack_eq_iff c accepted]
    exact ⟨Value.bv_inj, congrArg _⟩
  | getc failed | fgetc failed => exact right_getc_iff failed
  | memcpy leftToRight dest src n | memmove leftToRight dest src n =>
    exact iff_of_true ((right_param_iff (h 0 _ rfl)).mpr (.inr rfl)) trivial
  | memset memory n => exact iff_of_true ((right_param_iff (h 0 _ rfl)).mpr (.inr rfl)) trivial
  | ntohl netlong => exact iff_of_true (right_ntohl (h 0 _ rfl)) trivial
  | malloc size result | calloc nmemb size result | mmap64 len result | mmap len result
  | openFile path result | read fildes buf nbyte result | fopen pathname result
  | fopen64 pathname result | fread ptr size nmemb limit | rewind next
  | fseek offset result pos | fseeko offset result pos | fseeko64 offset result pos
  | strncpy leftToRight mem dest src n | strchr mem str c | memcmp mem a b n result =>
    exact iff_of_true (right_none _) trivial

end Step

theorem step_right_iff {ρ : Input} (cfg : Config) (fd : Int32) (s : WrapperState SymExpr)
    (event : WrapperEvent SymExpr) (h : event.Described ρ) :
    (∀ r, (s.step cfg fd event).2 = some r → r.Right ρ) ↔ event.Foreseen ρ fd s := by
  cases event with
  | call slots request =>
    rw [← right_call_iff request h, ← LibcState.returnValue_call _ cfg]
    exact ⟨fun hright ↦ hright _ rfl, fun hright r hr ↦ Option.some.inj hr ▸ hright⟩
  | compute pages stream => exact iff_of_true (fun r hr ↦ nomatch hr) trivial

end Machine

end Adacc
