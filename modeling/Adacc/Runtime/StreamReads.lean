import Adacc.Foundation.Machine
import Adacc.Runtime.StringFunctions
import Mathlib.Data.List.GetD

/-!
# Reading from a stream on the input file

The wrappers for `fread`, `fgets`, `getc`, `fgetc` and `ungetc` learn from the library's answer how
many bytes it has taken from the stream: from the number of items, from the length of the string in
the buffer, or from there being a character at all. The true number is known here, because the
library's functions are modelled, too, on a stream on a file whose content does not change.

* `fread` takes all the bytes it can get, including those of an item that it cannot complete.
* `fgets` stores the bytes of a line and a NUL. If there is nothing to be stored it leaves the
  buffer alone, and in any case `strlen` stops at the first NUL in it.

If one of these numbers is wrong, then every byte read later is mistaken for another one, until the
program seeks. With the simple backend bytes must not be skipped, either, for then it does not
return the expressions of the bytes that it is asked for (`InputByteSource`).
`streamReads_follow_iff` says that nothing else can go wrong.

`ungetc` pushes back the byte that the previous call has read last; if there is none, it is not
called.
-/

namespace Adacc

open ModularRange

/-- A file. Offsets are signed numbers of 64 bits. -/
structure InputFile where
  content : List (BitVec 8)
  length_lt : content.length < 2 ^ 63

/-- A stream with its position, whether a byte has just been read from it, memory, and the state of
the runtime library. -/
structure StreamState (SymExpr : Type) where
  position : ℕ
  justRead : Bool
  mem : UIntPtr → BitVec 8
  libc : LibcState SymExpr

/-- What a program does next on the stream. Seeking moves to a position or fails. In between, the
program changes memory, and instrumented code changes shadow memory and the slots. -/
inductive StreamEvent (SymExpr : Type)
  | fread (ptr : UIntPtr) (size nmemb : SizeT)
  | fgets (str : UIntPtr) (n : Int32)
  | getc
  | fgetc
  | ungetc (pushedBack : Bool)
  | rewind
  | fseek (offset : BitVec 64) (target : Option ℕ)
  | fseeko (offset : BitVec 64) (target : Option ℕ)
  | fseeko64 (offset : BitVec 64) (target : Option ℕ)
  | compute (mem : UIntPtr → BitVec 8) (pages : ShadowPages SymExpr) (slots : Slots SymExpr)

/-- A call of a wrapper. It has stored bytes from `addr` on, the first of which it has read from the
stream, or it has returned a character. -/
structure StreamCall (SymExpr : Type) where
  before : StreamState SymExpr
  after : StreamState SymExpr
  addr : UIntPtr
  delivered : ℕ
  stored : ℕ
  character : Bool

/-- The positions of the bytes that a call has taken from the stream. -/
def StreamCall.bytesTaken {SymExpr : Type} (c : StreamCall SymExpr) : List SizeT :=
  offsetsFrom (BitVec.ofNat 64 c.before.position) (if c.character then 1 else c.delivered)

/-- The positions of all bytes that calls have taken from the stream. -/
def bytesTaken {SymExpr : Type} (calls : List (Option (StreamCall SymExpr))) : List SizeT :=
  calls.flatMap fun call ↦ call.elim [] StreamCall.bytesTaken

/-! ## The library -/

/-- Memory after bytes have been stored. -/
def storeBytes (mem : UIntPtr → BitVec 8) (addr : UIntPtr) (bytes : List (BitVec 8)) :
    UIntPtr → BitVec 8 :=
  rangeUpdate mem addr bytes.length fun i ↦ bytes.getD i 0

/-- At most `n` bytes, up to the end of the line. -/
def takeLine : ℕ → List (BitVec 8) → List (BitVec 8)
  | 0, _ => []
  | _ + 1, [] => []
  | n + 1, b :: bytes => if b = 0x0a then [b] else b :: takeLine n bytes

namespace StreamState

section Library

variable {SymExpr : Type} (file : InputFile) (s : StreamState SymExpr)

/-- The bytes that `fread` takes from the stream. -/
def freadBytes (size nmemb : SizeT) : List (BitVec 8) :=
  (file.content.drop s.position).take (size.toNat * nmemb.toNat)

/-- The bytes that `fgets` takes from the stream. -/
def fgetsBytes (n : Int32) : List (BitVec 8) :=
  takeLine (n.toInt.toNat - 1) (file.content.drop s.position)

/-- The bytes that `fgets` stores. -/
def fgetsStored (n : Int32) : List (BitVec 8) :=
  if s.fgetsBytes file n = [] ∧ n ≠ 1 then [] else s.fgetsBytes file n ++ [0]

/-- Bytes have been taken from the stream. -/
def advance (bytes : List (BitVec 8)) (stored : List (BitVec 8)) (addr : UIntPtr) :
    StreamState SymExpr :=
  { s with
    position := s.position + bytes.length
    justRead := !bytes.isEmpty
    mem := storeBytes s.mem addr stored }

/-- The position changes. -/
def moveTo (position : ℕ) : StreamState SymExpr := { s with position, justRead := false }

/-- A call that stores nothing. -/
def callTo (after : StreamState SymExpr) : Option (StreamCall SymExpr) :=
  some ⟨s, after, 0, 0, 0, false⟩

/-- After bytes have been taken from the stream the position is not at the beginning. -/
theorem position_pos_advance {bytes : List (BitVec 8)} (stored : List (BitVec 8)) (addr : UIntPtr)
    (h : (s.advance bytes stored addr).justRead = true) :
    0 < (s.advance bytes stored addr).position := by
  have hne : bytes ≠ [] := by simpa [advance] using h
  exact Nat.lt_of_lt_of_le (List.length_pos_iff.mpr hne) (Nat.le_add_left _ _)

end Library

/-! ## The machine -/

variable {SymExpr : Type} [Backend SymExpr] (source : InputByteSource) (file : InputFile)
  (fd : Int32) (s : StreamState SymExpr)

/-- `fread` on the stream, with its wrapper. -/
def fread (ptr : UIntPtr) (size nmemb : SizeT) :
    StreamState SymExpr × Option (StreamCall SymExpr) :=
  let bytes := s.freadBytes file size nmemb
  let result := BitVec.ofNat 64 (bytes.length / size.toNat)
  let s' : StreamState SymExpr :=
    { s.advance bytes bytes ptr with
      libc := s.libc.freadSymbolized source fd ptr size nmemb result }
  (s', some ⟨s, s', ptr, bytes.length, bytes.length, false⟩)

/-- `fgets` on the stream, with its wrapper. -/
def fgets (str : UIntPtr) (n : Int32) : StreamState SymExpr × Option (StreamCall SymExpr) :=
  let bytes := s.fgetsBytes file n
  let stored := s.fgetsStored file n
  let mem := storeBytes s.mem str stored
  let s' : StreamState SymExpr :=
    { s.advance bytes stored str with libc := s.libc.fgetsSymbolized source fd str n mem }
  (s', some ⟨s, s', str, bytes.length, stored.length, false⟩)

/-- `getc` or `fgetc` on the stream, with its wrapper. -/
def getCharacter
    (symbolized : Int32 → Option (BitVec 8) → LibcState SymExpr → LibcState SymExpr) :
    StreamState SymExpr × Option (StreamCall SymExpr) :=
  match file.content[s.position]? with
  | some c =>
    let s' : StreamState SymExpr :=
      { s with position := s.position + 1, justRead := true, libc := symbolized fd (some c) s.libc }
    (s', some ⟨s, s', 0, 0, 0, true⟩)
  | none =>
    let s' : StreamState SymExpr := { s with justRead := false, libc := symbolized fd none s.libc }
    (s', s.callTo s')

/-- `ungetc` of the byte that has just been read, with its wrapper. -/
def ungetc (pushedBack : Bool) : StreamState SymExpr × Option (StreamCall SymExpr) :=
  if s.justRead then
    let s' : StreamState SymExpr :=
      { s.moveTo (if pushedBack then s.position - 1 else s.position) with
        libc := s.libc.ungetcSymbolized fd pushedBack }
    (s', s.callTo s')
  else (s, none)

/-- `fseek` or one of its variants on the stream, with its wrapper, to a position that an offset can
express. -/
def seek (symbolized : Int32 → BitVec 64 → Bool → Option (BitVec 64) → LibcState SymExpr →
    LibcState SymExpr) (offset : BitVec 64) (target : Option ℕ) :
    StreamState SymExpr × Option (StreamCall SymExpr) :=
  match target.filter (· < 2 ^ 63) with
  | some target =>
    let s' : StreamState SymExpr :=
      { s.moveTo target with
        libc := symbolized fd offset true (some (BitVec.ofNat 64 target)) s.libc }
    (s', s.callTo s')
  | none =>
    let s' : StreamState SymExpr :=
      { s with
        justRead := false
        libc := symbolized fd offset false (some (BitVec.ofNat 64 s.position)) s.libc }
    (s', s.callTo s')

/-- One step of a program. Nothing is answered where no wrapper is called. -/
def step : StreamEvent SymExpr → StreamState SymExpr × Option (StreamCall SymExpr)
  | .fread ptr size nmemb => s.fread source file fd ptr size nmemb
  | .fgets str n => s.fgets source file fd str n
  | .getc => s.getCharacter file fd (LibcState.getcSymbolized source)
  | .fgetc => s.getCharacter file fd (LibcState.fgetcSymbolized source)
  | .ungetc pushedBack => s.ungetc fd pushedBack
  | .rewind =>
    let s' : StreamState SymExpr := { s.moveTo 0 with libc := s.libc.rewindSymbolized fd }
    (s', s.callTo s')
  | .fseek offset target => s.seek fd LibcState.fseekSymbolized offset target
  | .fseeko offset target => s.seek fd LibcState.fseekoSymbolized offset target
  | .fseeko64 offset target => s.seek fd LibcState.fseeko64Symbolized offset target
  | .compute mem pages slots => ({ s with mem, libc := { s.libc with pages, slots } }, none)

/-- The state after the file has been opened under `fd`. -/
def opened (cfg : Config) (pathname : CString) (mem : UIntPtr → BitVec 8)
    (libc : LibcState SymExpr) : StreamState SymExpr :=
  ⟨0, false, mem, libc.fopenSymbolized cfg pathname (some fd)⟩

end StreamState

/-! ## Strings in memory -/

private theorem storeBytes_nil (mem : UIntPtr → BitVec 8) (addr : UIntPtr) :
    storeBytes mem addr [] = mem :=
  rangeUpdate_zero mem addr _

private theorem length_takeLine_le (n : ℕ) (bytes : List (BitVec 8)) :
    (takeLine n bytes).length ≤ n ∧ (takeLine n bytes).length ≤ bytes.length := by
  induction n generalizing bytes with
  | zero => exact ⟨le_rfl, Nat.zero_le _⟩
  | succ n ih =>
    cases bytes with
    | nil => exact ⟨Nat.zero_le _, le_rfl⟩
    | cons b bytes =>
      obtain ⟨hn, hbytes⟩ := ih bytes
      rw [takeLine]
      split
      · exact ⟨Nat.succ_le_succ (Nat.zero_le n), Nat.succ_le_succ (Nat.zero_le _)⟩
      · exact ⟨Nat.succ_le_succ hn, Nat.succ_le_succ hbytes⟩

/-- The length of a string that has been stored is the number of its bytes exactly if none of them
is a NUL. -/
theorem strlen_storeBytes_iff (mem : UIntPtr → BitVec 8) (str : UIntPtr) {bytes : List (BitVec 8)}
    (hlen : bytes.length < 2 ^ 63) :
    (strlen (storeBytes mem str (bytes ++ [0])) str).toNat = bytes.length ↔ 0 ∉ bytes := by
  have hread : ∀ i ≤ bytes.length, storeBytes mem str (bytes ++ [0]) (str + BitVec.ofNat 64 i)
      = (bytes ++ [0]).getD i 0 := fun i hi ↦
    rangeUpdate_add_ofNat _ _ _ (by rw [List.length_append]; exact Nat.lt_succ_of_le hi) (by omega)
  rw [toNat_strlen, strlenLoop_eq_iff _ (by omega), hread _ le_rfl]
  have hnul : (bytes ++ [0]).getD bytes.length 0 = 0 := by simp
  have hbyte : ∀ i (hi : i < bytes.length), (bytes ++ [0]).getD i 0 = bytes[i] := fun i hi ↦ by
    rw [List.getD_append _ _ _ _ hi, List.getD_eq_getElem _ _ hi]
  rw [hnul, List.mem_iff_getElem]
  push Not
  refine ⟨fun h i hi ↦ ?_, fun h ↦ ⟨rfl, fun i hi ↦ ?_⟩⟩
  · have hne := h.2 i hi
    rwa [hread i hi.le, hbyte i hi] at hne
  · rw [hread i hi.le, hbyte i hi]
    exact h i hi

/-! ## What goes wrong -/

namespace StreamState

variable {SymExpr : Type}

/-- `fread` completes every item that it begins. What `fgets` takes from the stream contains no NUL,
and if it stores nothing, then there is an empty string in the buffer. -/
def Exact (file : InputFile) (s : StreamState SymExpr) : StreamEvent SymExpr → Prop
  | .fread _ size nmemb => size.toNat ∣ (s.freadBytes file size nmemb).length
  | .fgets str n =>
    0 ∉ s.fgetsBytes file n ∧ (s.fgetsStored file n = [] → s.mem str = 0)
  | _ => True

/-- The remembered position is that of the stream. -/
structure Synced (fd : Int32) (s : StreamState SymExpr) : Prop where
  remembered : s.libc.inputFileDescriptor = fd
  offset_eq : s.libc.inputOffset = BitVec.ofNat 64 s.position
  position_lt : s.position < 2 ^ 63
  position_pos : s.justRead = true → 0 < s.position

theorem length_freadBytes_lt (file : InputFile) (s : StreamState SymExpr) (size nmemb : SizeT) :
    (s.freadBytes file size nmemb).length < 2 ^ 63 ∧
      (s.position < 2 ^ 63 → s.position + (s.freadBytes file size nmemb).length < 2 ^ 63) := by
  have := file.length_lt
  rw [freadBytes, List.length_take, List.length_drop]
  omega

theorem length_fgetsBytes_lt (file : InputFile) (s : StreamState SymExpr) (n : Int32) :
    (s.fgetsBytes file n).length < 2 ^ 63 ∧
      (s.position < 2 ^ 63 → s.position + (s.fgetsBytes file n).length < 2 ^ 63) := by
  have := file.length_lt
  have hle := (length_takeLine_le (n.toInt.toNat - 1) (file.content.drop s.position)).2
  rw [List.length_drop] at hle
  rw [fgetsBytes]
  omega

private theorem length_fgetsBytes_le (file : InputFile) (s : StreamState SymExpr) (n : Int32) :
    (s.fgetsBytes file n).length ≤ (s.fgetsStored file n).length := by
  unfold fgetsStored
  split
  · next hempty => rw [hempty.1]
  · rw [List.length_append]
    exact Nat.le_add_right _ _

end StreamState

variable {SymExpr : Type} [Backend SymExpr]

open Backend

/-- After the call the remembered position is that of the stream. The bytes that the call has
delivered have the expressions of the input bytes that they are, and so has a character; of the
bytes that it has not stored none gets the expression of an input byte. -/
structure StreamCall.Right (c : StreamCall SymExpr) : Prop where
  position : c.after.libc.inputOffset = BitVec.ofNat 64 c.after.position
  delivered : ∀ i < c.delivered, shadowAt c.after.libc.pages (c.addr + BitVec.ofNat 64 i)
    = some (symGetInputByte (BitVec.ofNat 64 (c.before.position + i)))
  notStored : ∀ a p, c.stored ≤ (a - c.addr).toNat →
    shadowAt c.after.libc.pages a = some (symGetInputByte p) →
      shadowAt c.before.libc.pages a = some (symGetInputByte p)
  character : c.character = true → c.after.libc.slots.returnValue
    = some (symBuildZExt (symGetInputByte (BitVec.ofNat 64 c.before.position)) 24)

namespace StreamState

variable {source : InputByteSource} {file : InputFile} {fd : Int32} {s s' : StreamState SymExpr}
  {asked : List SizeT}

/-- A call that has stored nothing. -/
theorem right_callTo (hpages : s'.libc.pages = s.libc.pages)
    (hposition : s'.libc.inputOffset = BitVec.ofNat 64 s'.position) {c : StreamCall SymExpr}
    (hc : s.callTo s' = some c) : c.Right := by
  rw [← Option.some.inj hc]
  refine ⟨hposition, fun i hi ↦ absurd hi (Nat.not_lt_zero i), fun a p _ ha ↦ ?_,
    (Bool.false_ne_true · |>.elim)⟩
  rwa [← hpages]

/-- A call that has filled a buffer is right exactly if the wrapper has got the number of bytes
right, and asks for them in order. -/
theorem right_of_fills_iff (h : Synced fd s) (hasked : source.Asked s.libc.stdinBytes asked)
    (s' : StreamState SymExpr) {addr : UIntPtr} {length : SizeT} {k stored : ℕ}
    (hfills : LibcState.Fills source s.libc s'.libc fd addr length)
    (hposition : s'.position = s.position + k) (hk : k < 2 ^ 63) (hstored : k ≤ stored) :
    (⟨s, s', addr, k, stored, false⟩ : StreamCall SymExpr).Right ↔
      length.toNat = k ∧
        source.InOrder (asked ++ offsetsFrom (BitVec.ofNat 64 s.position) k) := by
  obtain ⟨hoffset, hshadow⟩ := hfills.input h.remembered.symm
  rw [← hasked.byteFrom_eq_iff]
  rw [h.offset_eq] at hoffset hshadow
  have hlabel : ∀ i < length.toNat, shadowAt s'.libc.pages (addr + BitVec.ofNat 64 i)
      = source.byteFrom s.libc.stdinBytes (BitVec.ofNat 64 s.position) i := fun i hi ↦ by
    rw [hshadow, rangeUpdate_add_ofNat _ _ _ hi (by omega)]
  constructor
  · intro hright
    have hpos := hright.position
    rw [hoffset, hposition, BitVec.ofNat_add] at hpos
    have hlength : length.toNat = k := by
      rw [add_left_cancel hpos, BitVec.toNat_ofNat, Nat.mod_eq_of_lt (by omega)]
    refine ⟨hlength, fun i hi ↦ ?_⟩
    rw [← hlabel i (hlength ▸ hi), ← BitVec.ofNat_add]
    exact hright.delivered i hi
  · rintro ⟨rfl, hbytes⟩
    refine ⟨?_, fun i hi ↦ ?_, fun a p ha hlabel ↦ ?_, (Bool.false_ne_true · |>.elim)⟩
    · rw [hoffset, hposition, BitVec.ofNat_add, BitVec.ofNat_toNat, BitVec.setWidth_eq]
    · rw [hlabel i hi, hbytes i hi, BitVec.ofNat_add]
    · rwa [hshadow, rangeUpdate_of_le (hstored.trans ha)] at hlabel

/-! ## One step -/

private theorem fread_right_iff (h : Synced fd s) (hasked : source.Asked s.libc.stdinBytes asked)
    (ptr : UIntPtr) (size nmemb : SizeT) :
    (∀ c, (s.fread source file fd ptr size nmemb).2 = some c → c.Right) ↔
      size.toNat ∣ (s.freadBytes file size nmemb).length ∧
        source.InOrder (asked ++ offsetsFrom (BitVec.ofNat 64 s.position)
          (s.freadBytes file size nmemb).length) := by
  have hlt := (length_freadBytes_lt file s size nmemb).1
  have hfills := LibcState.fills_freadSymbolized source s.libc fd ptr size nmemb
    (BitVec.ofNat 64 ((s.freadBytes file size nmemb).length / size.toNat))
  have hmul : (BitVec.ofNat 64 ((s.freadBytes file size nmemb).length / size.toNat) * size).toNat
      = (s.freadBytes file size nmemb).length / size.toNat * size.toNat := by
    have hle := Nat.div_mul_le_self (s.freadBytes file size nmemb).length size.toNat
    rw [BitVec.toNat_mul, BitVec.toNat_ofNat, Nat.mod_mul_mod, Nat.mod_eq_of_lt (by omega)]
  rw [Nat.dvd_iff_div_mul_eq, ← hmul, ← right_of_fills_iff h hasked
    (s.fread source file fd ptr size nmemb).1 hfills rfl hlt le_rfl]
  exact ⟨fun hc ↦ hc _ rfl, fun hright c hc ↦ Option.some.inj hc ▸ hright⟩

private theorem fgets_right_iff (h : Synced fd s) (hasked : source.Asked s.libc.stdinBytes asked)
    (str : UIntPtr) (n : Int32) :
    (∀ c, (s.fgets source file fd str n).2 = some c → c.Right) ↔
      (0 ∉ s.fgetsBytes file n ∧ (s.fgetsStored file n = [] → s.mem str = 0)) ∧
        source.InOrder (asked ++ offsetsFrom (BitVec.ofNat 64 s.position)
          (s.fgetsBytes file n).length) := by
  have hlt := (length_fgetsBytes_lt file s n).1
  have hfills := LibcState.fills_fgetsSymbolized source s.libc fd str n
    (storeBytes s.mem str (s.fgetsStored file n))
  have hstored := length_fgetsBytes_le file s n
  have hright := right_of_fills_iff h hasked (s.fgets source file fd str n).1 hfills rfl hlt hstored
  have hcall : (∀ c, (s.fgets source file fd str n).2 = some c → c.Right) ↔
      (strlen (storeBytes s.mem str (s.fgetsStored file n)) str).toNat
        = (s.fgetsBytes file n).length ∧
      source.InOrder (asked ++ offsetsFrom (BitVec.ofNat 64 s.position)
        (s.fgetsBytes file n).length) := by
    rw [← hright]
    exact ⟨fun hc ↦ hc _ rfl, fun hright c hc ↦ Option.some.inj hc ▸ hright⟩
  rw [hcall]
  refine and_congr_left' ?_
  unfold fgetsStored
  split
  -- nothing has been stored, and `strlen` finds what was in the buffer before
  · next hempty =>
    rw [storeBytes_nil, hempty.1, toNat_strlen, List.length_nil,
      strlenLoop_eq_iff _ (by norm_num), add_ofNat_zero]
    simp
  · rw [strlen_storeBytes_iff _ _ hlt]
    simp

/-- A character is right if its byte is asked for in order. At the end of the file there is none. -/
theorem getCharacter_right_iff (h : Synced fd s) (hasked : source.Asked s.libc.stdinBytes asked) :
    (∀ c, (s.getCharacter file fd (LibcState.readCharacter source)).2 = some c → c.Right) ↔
      source.InOrder (asked ++ ((s.getCharacter file fd (LibcState.readCharacter source)).2.elim []
        StreamCall.bytesTaken)) := by
  obtain rfl := h.remembered
  unfold getCharacter
  split
  · next b _ =>
    have hread := LibcState.readCharacter_input source s.libc b
    have hcharacter := hasked.character_eq_iff s.libc.inputOffset 24
    rw [h.offset_eq] at hcharacter
    refine Iff.trans ⟨fun hc ↦ ?_, fun hc c hcall ↦ ?_⟩ hcharacter
    · have hright := (hc _ rfl).character rfl
      dsimp only at hright
      rw [hread, h.offset_eq] at hright
      exact hright
    · rw [← Option.some.inj hcall]
      refine ⟨?_, fun i hi ↦ absurd hi (Nat.not_lt_zero i), fun a p _ ha ↦ ?_, fun _ ↦ ?_⟩
      · dsimp only
        rw [hread, BitVec.ofNat_add, ← h.offset_eq]
        rfl
      · dsimp only at ha
        rwa [hread] at ha
      · dsimp only
        rw [hread, h.offset_eq]
        exact hc
  · have hsame := LibcState.samePosition_readCharacter source s.libc s.libc.inputFileDescriptor
    refine iff_of_true (fun c hc ↦ right_callTo ?_ ?_ hc) ?_
    · exact hsame.pages_eq
    · exact hsame.inputOffset_eq.trans h.offset_eq
    · exact (List.append_nil asked).symm ▸ hasked.inOrder

/-- Going back over the byte that has just been read. -/
theorem ofNat_position_sub_one {position : ℕ} (h : 0 < position) :
    BitVec.ofNat 64 (position - 1) = BitVec.ofNat 64 position - 1 := by
  have hback : position = position - 1 + 1 := (Nat.sub_add_cancel h).symm
  rw [eq_sub_iff_add_eq]
  exact (BitVec.ofNat_add ..).symm.trans (congrArg (BitVec.ofNat 64) hback.symm)

private theorem ungetc_right (h : Synced fd s) (pushedBack : Bool) {c : StreamCall SymExpr}
    (hc : (s.ungetc fd pushedBack).2 = some c) : c.Right := by
  unfold ungetc at hc
  split at hc
  · next hread =>
    cases pushedBack with
    | true =>
      have hmoves := LibcState.moves_ungetcSymbolized s.libc fd
      refine right_callTo hmoves.pages_eq ((hmoves.input h.remembered.symm).trans ?_) hc
      rw [h.offset_eq]
      exact (ofNat_position_sub_one (h.position_pos hread)).symm
    | false =>
      have hsame := LibcState.samePosition_ungetcSymbolized s.libc fd
      exact right_callTo hsame.pages_eq (hsame.inputOffset_eq.trans h.offset_eq) hc
  · cases hc

theorem seek_right (h : Synced fd s) (caller : LibcFunction) (offset : BitVec 64)
    (target : Option ℕ) {c : StreamCall SymExpr}
    (hc : (s.seek fd (fun fd offset result pos libc ↦ libc.seekStream caller fd offset result pos)
      offset target).2 = some c) : c.Right := by
  unfold seek at hc
  split at hc
  · next target _ =>
    have hmoves := LibcState.moves_seekStream s.libc caller fd offset (BitVec.ofNat 64 target)
    exact right_callTo hmoves.pages_eq (hmoves.input h.remembered.symm) hc
  · have hsame := LibcState.samePosition_seekStream s.libc caller fd offset
      (some (BitVec.ofNat 64 s.position))
    exact right_callTo hsame.pages_eq (hsame.inputOffset_eq.trans h.offset_eq) hc

/-- A call that takes nothing from the stream. -/
theorem right_iff_of_nil (hasked : source.Asked s.libc.stdinBytes asked)
    {call : Option (StreamCall SymExpr)} (hnil : call.elim [] StreamCall.bytesTaken = [])
    (hright : ∀ c, call = some c → c.Right) :
    (∀ c, call = some c → c.Right) ↔
      True ∧ source.InOrder (asked ++ call.elim [] StreamCall.bytesTaken) := by
  rw [hnil, List.append_nil]
  exact iff_of_true hright ⟨trivial, hasked.inOrder⟩

omit [Backend SymExpr] in
theorem bytesTaken_ungetc (s : StreamState SymExpr) (fd : Int32) (pushedBack : Bool) :
    (s.ungetc fd pushedBack).2.elim [] StreamCall.bytesTaken = [] := by
  unfold ungetc
  split <;> rfl

omit [Backend SymExpr] in
theorem bytesTaken_seek (s : StreamState SymExpr) (fd : Int32)
    (symbolized : Int32 → BitVec 64 → Bool → Option (BitVec 64) → LibcState SymExpr →
      LibcState SymExpr) (offset : BitVec 64) (target : Option ℕ) :
    (s.seek fd symbolized offset target).2.elim [] StreamCall.bytesTaken = [] := by
  unfold seek
  split <;> rfl

/-- While the position is right and bytes have been asked for in order, a call is right exactly if
it is exact and asks for bytes in order. -/
theorem step_right_iff (file : InputFile) (h : Synced fd s)
    (hasked : source.Asked s.libc.stdinBytes asked) (event : StreamEvent SymExpr) :
    (∀ c, (s.step source file fd event).2 = some c → c.Right) ↔
      Exact file s event ∧
        source.InOrder
          (asked ++ (s.step source file fd event).2.elim [] StreamCall.bytesTaken) := by
  cases event with
  | fread ptr size nmemb => exact fread_right_iff h hasked ptr size nmemb
  | fgets str n => exact fgets_right_iff h hasked str n
  | getc => exact (getCharacter_right_iff h hasked).trans (and_iff_right trivial).symm
  | fgetc => exact (getCharacter_right_iff h hasked).trans (and_iff_right trivial).symm
  | ungetc pushedBack =>
    exact right_iff_of_nil hasked (bytesTaken_ungetc s fd pushedBack) fun c hc ↦
      ungetc_right h pushedBack hc
  | rewind =>
    have hmoves := LibcState.moves_rewindSymbolized s.libc fd
    refine right_iff_of_nil hasked rfl fun c hc ↦ right_callTo hmoves.pages_eq ?_ hc
    exact hmoves.input h.remembered.symm
  | fseek offset target =>
    exact right_iff_of_nil hasked (bytesTaken_seek s fd _ offset target) fun c hc ↦
      seek_right h .fseek offset target hc
  | fseeko offset target =>
    exact right_iff_of_nil hasked (bytesTaken_seek s fd _ offset target) fun c hc ↦
      seek_right h .fseeko offset target hc
  | fseeko64 offset target =>
    exact right_iff_of_nil hasked (bytesTaken_seek s fd _ offset target) fun c hc ↦
      seek_right h .fseeko64 offset target hc
  | compute mem pages slots => exact right_iff_of_nil hasked rfl fun c hc ↦ nomatch hc

/-- A call that has been right keeps the position right. -/
theorem Synced.of_right (h : Synced fd s) {c : StreamCall SymExpr} (hc : c.Right)
    (hfd : c.after.libc.inputFileDescriptor = s.libc.inputFileDescriptor)
    (hlt : c.after.position < 2 ^ 63) (hpos : c.after.justRead = true → 0 < c.after.position) :
    Synced fd c.after :=
  ⟨hfd.trans h.remembered, hc.position, hlt, hpos⟩

/-- A call that has stored nothing, after which no byte has just been read. -/
theorem Synced.callTo (h : Synced fd s) (hright : ∀ c, s.callTo s' = some c → c.Right)
    (hfd : s'.libc.inputFileDescriptor = s.libc.inputFileDescriptor) (hlt : s'.position < 2 ^ 63)
    (hread : s'.justRead = false) : Synced fd s' :=
  h.of_right (hright _ rfl) hfd hlt fun htrue ↦ absurd htrue (by simp [hread])

private theorem synced_getCharacter (h : Synced fd s)
    (hright : ∀ c, (s.getCharacter file fd (LibcState.readCharacter source)).2 = some c → c.Right) :
    Synced fd (s.getCharacter file fd (LibcState.readCharacter source)).1 := by
  obtain rfl := h.remembered
  unfold getCharacter at hright ⊢
  split at hright
  · next b hb =>
    have hlt := (List.getElem?_eq_some_iff.mp hb).1.trans file.length_lt
    have hread := LibcState.readCharacter_input source s.libc b
    refine h.of_right (hright _ rfl) ?_ ?_ fun _ ↦ Nat.succ_pos _
    · dsimp only
      rw [hread]
      rfl
    · have := (List.getElem?_eq_some_iff.mp hb).1
      have := file.length_lt
      dsimp only
      omega
  · exact h.callTo hright rfl h.position_lt rfl

private theorem synced_ungetc (h : Synced fd s) (pushedBack : Bool)
    (hright : ∀ c, (s.ungetc fd pushedBack).2 = some c → c.Right) :
    Synced fd (s.ungetc fd pushedBack).1 := by
  unfold ungetc at hright ⊢
  split at hright
  · next hread =>
    rw [if_pos hread]
    refine h.callTo hright ?_ ?_ rfl
    · cases pushedBack
      · exact (LibcState.samePosition_ungetcSymbolized s.libc fd).inputFileDescriptor_eq
      · exact (LibcState.moves_ungetcSymbolized s.libc fd).inputFileDescriptor_eq
    · have := h.position_lt
      dsimp only [moveTo]
      split <;> omega
  · next hread =>
    rw [if_neg hread]
    exact h

theorem synced_seek (h : Synced fd s) (caller : LibcFunction) (offset : BitVec 64)
    (target : Option ℕ)
    (hright : ∀ c, (s.seek fd (fun fd offset result pos libc ↦ libc.seekStream caller fd offset
      result pos) offset target).2 = some c → c.Right) :
    Synced fd (s.seek fd (fun fd offset result pos libc ↦ libc.seekStream caller fd offset
      result pos) offset target).1 := by
  unfold seek at hright ⊢
  split at hright
  · next target htarget =>
    refine h.callTo hright ?_ ?_ rfl
    · exact (LibcState.moves_seekStream s.libc caller fd offset _).inputFileDescriptor_eq
    · exact of_decide_eq_true (Option.filter_eq_some_iff.mp htarget).2
  · refine h.callTo hright ?_ h.position_lt rfl
    exact (LibcState.samePosition_seekStream s.libc caller fd offset
      (some (BitVec.ofNat 64 s.position))).inputFileDescriptor_eq

private theorem synced_step (h : Synced fd s) (event : StreamEvent SymExpr)
    (hright : ∀ c, (s.step source file fd event).2 = some c → c.Right) :
    Synced fd (s.step source file fd event).1 := by
  cases event with
  | fread ptr size nmemb =>
    exact h.of_right (hright _ rfl) (LibcState.fills_freadSymbolized source s.libc fd ptr size nmemb
      (BitVec.ofNat 64 ((s.freadBytes file size nmemb).length / size.toNat))).inputFileDescriptor_eq
      ((length_freadBytes_lt file s size nmemb).2 h.position_lt)
      (s.position_pos_advance (s.freadBytes file size nmemb) ptr)
  | fgets str n =>
    exact h.of_right (hright _ rfl) (LibcState.fills_fgetsSymbolized source s.libc fd str n
      (storeBytes s.mem str (s.fgetsStored file n))).inputFileDescriptor_eq
      ((length_fgetsBytes_lt file s n).2 h.position_lt)
      (s.position_pos_advance (s.fgetsStored file n) str)
  | getc => exact synced_getCharacter h hright
  | fgetc => exact synced_getCharacter h hright
  | ungetc pushedBack => exact synced_ungetc h pushedBack hright
  | rewind =>
    exact h.callTo hright (LibcState.moves_rewindSymbolized s.libc fd).inputFileDescriptor_eq
      (Nat.two_pow_pos 63) rfl
  | fseek offset target => exact synced_seek h .fseek offset target hright
  | fseeko offset target => exact synced_seek h .fseeko offset target hright
  | fseeko64 offset target => exact synced_seek h .fseeko64 offset target hright
  | compute mem pages slots => exact ⟨h.remembered, h.offset_eq, h.position_lt, h.position_pos⟩

/-! ## What the backend has been asked for -/

/-- A call that has filled a buffer rightly has asked for the bytes that it has taken. -/
theorem asked_of_fills (h : Synced fd s) (hasked : source.Asked s.libc.stdinBytes asked)
    {addr : UIntPtr} {length : SizeT} {k stored : ℕ}
    (hfills : LibcState.Fills source s.libc s'.libc fd addr length)
    (hposition : s'.position = s.position + k) (hk : k < 2 ^ 63) (hstored : k ≤ stored)
    (hright : (⟨s, s', addr, k, stored, false⟩ : StreamCall SymExpr).Right) :
    source.Asked s'.libc.stdinBytes
      (asked ++ offsetsFrom (BitVec.ofNat 64 s.position) k) := by
  obtain ⟨hlength, horder⟩ :=
    (right_of_fills_iff h hasked s' hfills hposition hk hstored).mp hright
  rw [hfills.asked h.remembered.symm, hlength, h.offset_eq]
  exact hasked.more horder

private theorem asked_getCharacter (h : Synced fd s) (hasked : source.Asked s.libc.stdinBytes asked)
    (horder : source.InOrder (asked ++
      (s.getCharacter file fd (LibcState.readCharacter source)).2.elim [] StreamCall.bytesTaken)) :
    source.Asked (s.getCharacter file fd (LibcState.readCharacter source)).1.libc.stdinBytes
      (asked ++ (s.getCharacter file fd (LibcState.readCharacter source)).2.elim []
        StreamCall.bytesTaken) := by
  obtain rfl := h.remembered
  unfold getCharacter at horder ⊢
  split at horder
  · next b _ =>
    dsimp only
    rw [LibcState.readCharacter_input source s.libc b, h.offset_eq]
    exact hasked.more horder
  · exact (List.append_nil asked).symm ▸ hasked

omit [Backend SymExpr] in
theorem stdinBytes_ungetc (s : StreamState SymExpr) (fd : Int32) (pushedBack : Bool) :
    (s.ungetc fd pushedBack).1.libc.stdinBytes = s.libc.stdinBytes := by
  unfold ungetc
  split
  · cases pushedBack
    · exact (LibcState.samePosition_ungetcSymbolized s.libc fd).stdinBytes_eq
    · exact (LibcState.moves_ungetcSymbolized s.libc fd).stdinBytes_eq
  · rfl

theorem stdinBytes_seek (s : StreamState SymExpr) (fd : Int32) (caller : LibcFunction)
    (offset : BitVec 64) (target : Option ℕ) :
    (s.seek fd (fun fd offset result pos libc ↦ libc.seekStream caller fd offset result pos) offset
      target).1.libc.stdinBytes = s.libc.stdinBytes := by
  unfold seek
  split
  · exact (LibcState.moves_seekStream s.libc caller fd offset _).stdinBytes_eq
  · exact (LibcState.samePosition_seekStream s.libc caller fd offset
      (some (BitVec.ofNat 64 s.position))).stdinBytes_eq

/-- A call that has been right has asked for the bytes that it has taken. -/
theorem asked_step (h : Synced fd s) (hasked : source.Asked s.libc.stdinBytes asked)
    (event : StreamEvent SymExpr)
    (hright : ∀ c, (s.step source file fd event).2 = some c → c.Right) :
    source.Asked (s.step source file fd event).1.libc.stdinBytes
      (asked ++ (s.step source file fd event).2.elim [] StreamCall.bytesTaken) := by
  have horder := ((step_right_iff file h hasked event).mp hright).2
  -- a call that takes nothing from the stream
  have hquiet : (s.step source file fd event).2.elim [] StreamCall.bytesTaken = [] →
      (s.step source file fd event).1.libc.stdinBytes = s.libc.stdinBytes →
        source.Asked (s.step source file fd event).1.libc.stdinBytes
          (asked ++ (s.step source file fd event).2.elim [] StreamCall.bytesTaken) := by
    intro hnil hbytes
    rw [hnil, List.append_nil, hbytes]
    exact hasked
  cases event with
  | fread ptr size nmemb =>
    exact asked_of_fills h hasked (LibcState.fills_freadSymbolized source s.libc fd ptr size nmemb
      (BitVec.ofNat 64 ((s.freadBytes file size nmemb).length / size.toNat))) rfl
      (length_freadBytes_lt file s size nmemb).1 le_rfl (hright _ rfl)
  | fgets str n =>
    refine asked_of_fills h hasked (LibcState.fills_fgetsSymbolized source s.libc fd str n
      (storeBytes s.mem str (s.fgetsStored file n))) rfl (length_fgetsBytes_lt file s n).1
      (length_fgetsBytes_le file s n) (hright _ rfl)
  | getc => exact asked_getCharacter h hasked horder
  | fgetc => exact asked_getCharacter h hasked horder
  | ungetc pushedBack =>
    exact hquiet (bytesTaken_ungetc s fd pushedBack) (stdinBytes_ungetc s fd pushedBack)
  | rewind => exact hquiet rfl (LibcState.moves_rewindSymbolized s.libc fd).stdinBytes_eq
  | fseek offset target =>
    exact hquiet (bytesTaken_seek s fd _ offset target) (stdinBytes_seek s fd .fseek offset target)
  | fseeko offset target =>
    exact hquiet (bytesTaken_seek s fd _ offset target) (stdinBytes_seek s fd .fseeko offset target)
  | fseeko64 offset target =>
    exact hquiet (bytesTaken_seek s fd _ offset target)
      (stdinBytes_seek s fd .fseeko64 offset target)
  | compute mem pages slots => exact hquiet rfl rfl

/-! ## Runs -/

omit [Backend SymExpr] in
theorem synced_opened {cfg : Config} {pathname : CString}
    (hpath : LibcState.namesInputFile cfg pathname = true) (fd : Int32)
    (mem : UIntPtr → BitVec 8) (libc : LibcState SymExpr) :
    Synced fd (opened fd cfg pathname mem libc) := by
  obtain ⟨hremembered, hoffset⟩ :=
    LibcState.rememberInputFile_of_true hpath fd (libc.setReturn none)
  exact ⟨hremembered, hoffset, Nat.two_pow_pos 63, (Bool.false_ne_true · |>.elim)⟩

private theorem asked_opened (cfg : Config) (pathname : CString) (fd : Int32)
    (mem : UIntPtr → BitVec 8) {libc : LibcState SymExpr} (hnew : libc.stdinBytes = []) :
    source.Asked (opened fd cfg pathname mem libc).libc.stdinBytes [] := by
  have hbytes : (opened fd cfg pathname mem libc).libc.stdinBytes = [] :=
    (LibcState.stdinBytes_fopenSymbolized cfg pathname (some fd) libc).trans hnew
  rw [hbytes]
  exact InputByteSource.asked_nil

/-- Runs from a state in which the position is right and no bytes have been asked for. -/
theorem Synced.run_iff (h : Synced fd s) (hasked : source.Asked s.libc.stdinBytes [])
    (events : List (StreamEvent SymExpr)) :
    (∀ c, some c ∈ (Machine.run (step source file fd) s events).2 → c.Right) ↔
      Machine.Along (step source file fd) (Exact file) s events ∧
        source.InOrder (bytesTaken (Machine.run (step source file fd) s events).2) := by
  -- a record of the bytes that have been asked for
  let collect (t : StreamState SymExpr) (event : StreamEvent SymExpr) : List SizeT :=
    (t.step source file fd event).2.elim [] StreamCall.bytesTaken
  let recorded := Machine.record collect (step source file fd)
  have hright : ∀ (r : List SizeT × StreamState SymExpr) event,
      Synced fd r.2 ∧ source.Asked r.2.libc.stdinBytes r.1 → True →
        ((∀ c, (recorded r event).2 = some c → c.Right) ↔
          Exact file r.2 event ∧ source.InOrder (r.1 ++ collect r.2 event)) :=
    fun r event hr _ ↦ step_right_iff file hr.1 hr.2 event
  have hrun : (∀ c, some c ∈ (Machine.run recorded ([], s) events).2 → c.Right) ↔
      Machine.Along recorded (fun r event ↦ Exact file r.2 event ∧
        source.InOrder (r.1 ++ collect r.2 event)) ([], s) events :=
    Machine.run_some_iff hright (fun r event hr _ hstep ↦
      ⟨synced_step hr.1 event hstep, asked_step hr.1 hr.2 event hstep⟩) ⟨h, hasked⟩
      fun _ _ ↦ trivial
  have hrecord : (Machine.run recorded ([], s) events).1.1
      = [] ++ bytesTaken (Machine.run (step source file fd) s events).2 :=
    Machine.record_answers (step source file fd)
      (fun call ↦ call.elim [] StreamCall.bytesTaken) [] s events
  rw [(Machine.run_record collect (step source file fd) [] s events).2, Machine.along_and,
    Machine.along_record, Machine.along_record_iff (fun _ _ ↦ InputByteSource.InOrder.of_append)
      InputByteSource.inOrder_nil, hrecord, List.nil_append] at hrun
  exact hrun

/-- In every run on a stream on the input file the positions agree and all labels are right exactly
if every read is exact and, with the simple backend, the bytes of the file are taken in order. -/
theorem streamReads_follow_iff {cfg : Config} {pathname : CString}
    (hpath : LibcState.namesInputFile cfg pathname = true) (mem : UIntPtr → BitVec 8)
    {libc : LibcState SymExpr} (hnew : libc.stdinBytes = []) (events : List (StreamEvent SymExpr)) :
    let s := opened fd cfg pathname mem libc
    (∀ c, some c ∈ (Machine.run (step source file fd) s events).2 → c.Right) ↔
      Machine.Along (step source file fd) (Exact file) s events ∧
        source.InOrder (bytesTaken (Machine.run (step source file fd) s events).2) :=
  (synced_opened hpath fd mem libc).run_iff (asked_opened cfg pathname fd mem hnew) events

/-- A file with a NUL inside. -/
def nulInside : InputFile := ⟨[0x41, 0, 0x42], by decide⟩

/-- `fgets` takes three bytes, and the string in the buffer has one. -/
theorem not_streamReads_follow :
    ¬ ∀ (source : InputByteSource) (file : InputFile) (fd : Int32) (cfg : Config)
      (pathname : CString), LibcState.namesInputFile cfg pathname = true →
        ∀ mem (libc : LibcState Z3Ast) (events : List (StreamEvent Z3Ast)), libc.stdinBytes = [] →
          ∀ c, some c ∈ (Machine.run (step source file fd) (opened fd cfg pathname mem libc)
            events).2 → c.Right := by
  intro h
  have hpath : LibcState.namesInputFile ⟨true, false, [0x69, 0x6e]⟩ [0x69, 0x6e] = true := by
    decide
  have hsynced := synced_opened hpath 3 (fun _ ↦ 0) (.init : LibcState Z3Ast)
  have hasked : InputByteSource.Asked .simple ([] : List (Option Z3Ast)) [] :=
    InputByteSource.asked_nil
  have hexact := (step_right_iff nulInside hsynced hasked (.fgets 0x1000 10)).mp
    fun c hc ↦ h .simple nulInside 3 _ _ hpath (fun _ ↦ 0) .init [.fgets 0x1000 10] rfl c
      (by rw [Machine.run_cons, hc]; exact List.mem_cons_self)
  exact hexact.1.1 (by decide)

/-- Without `fgets` the NUL does no harm, and nothing is skipped. -/
theorem streamReads_follow_iff_nulInside :
    let s := opened 3 ⟨true, false, [0x69, 0x6e]⟩ [0x69, 0x6e] (fun _ ↦ 0) (.init : LibcState Z3Ast)
    let events : List (StreamEvent Z3Ast) :=
      [.fread 0x1000 1 2, .ungetc true, .getc, .getc, .rewind]
    (∀ c, some c ∈ (Machine.run (step .simple nulInside 3) s events).2 → c.Right) ↔
      Machine.Along (step .simple nulInside 3) (Exact nulInside) s events ∧
        InputByteSource.InOrder .simple
          (bytesTaken (Machine.run (step .simple nulInside 3) s events).2) :=
  streamReads_follow_iff (by decide) _ rfl _

end StreamState

end Adacc
