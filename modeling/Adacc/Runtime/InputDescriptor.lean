import Adacc.Foundation.Machine
import Adacc.Runtime.LibcWrappers

/-!
# The descriptor of the input file

The wrappers remember the number of a descriptor and a position. The system's own idea of both is
the `Kernel`: numbers refer to open file descriptions, several numbers possibly to the same one,
and a description has a file and an offset. A step of the machine is one call of a program; what
the system is free to choose, such as the number for a new descriptor or how much a read delivers,
belongs to the event.

Two questions are asked of runs of this machine.

* Is the remembered position that of the descriptor, and do the bytes that are read get the
  expressions of the input bytes at their positions? The position is always right from the opening
  of the input file on, whatever is read and sought on any descriptor. The expressions are right
  with the QSYM backend, and with the simple backend as long as the program skips no bytes of the
  file (`readsFollowPosition_iff`).
* Does the remembered number refer to the input file? A number is remembered when the path that
  has been opened under it *contains* the name of the input file, and it is never forgotten,
  although closing a file goes unnoticed and the number can be given away again.
  `onlyInputFile_of_proper` says what programs must refrain from.

A descriptor is one of a file that has a position. A stream goes with its descriptor: closing one
closes the other, and a stream whose descriptor is not open delivers nothing.
-/

namespace Adacc

open ModularRange

/-! ## Open files -/

/-- The open files of a process. -/
structure Kernel (File : Type) where
  /-- The open file description that a number refers to. -/
  table : Int32 → Option ℕ
  file : ℕ → File
  offset : ℕ → BitVec 64
  /-- The next unused description. -/
  next : ℕ
  lt_next : ∀ {fd d}, table fd = some d → d < next
  nonneg : ∀ {fd d}, table fd = some d → 0 ≤ fd

/-- The standard streams, all on one terminal. -/
def Kernel.standard {File : Type} (terminal : File) : Kernel File where
  table fd := if fd = 0 ∨ fd = 1 ∨ fd = 2 then some 0 else none
  file _ := terminal
  offset _ := 0
  next := 1
  lt_next h := by
    split at h
    · rw [← Option.some.inj h]
      exact Nat.one_pos
    · cases h
  nonneg h := by
    split at h
    · next hfd => rcases hfd with rfl | rfl | rfl <;> decide
    · cases h

namespace Kernel

variable {File : Type} (k : Kernel File)

/-- The file that a number refers to. -/
def fileOf (fd : Int32) : Option File := (k.table fd).map k.file

/-- The offset of a number. -/
def offsetOf (fd : Int32) : Option (BitVec 64) := (k.table fd).map k.offset

/-- `open` of a file under a number, if that can be handed out. -/
def openFile (file : Option File) (number : Int32) : Option Int32 × Kernel File :=
  match file with
  | none => (none, k)
  | some file =>
    if h : 0 ≤ number ∧ k.table number = none then
      (some number,
        { table := Function.update k.table number (some k.next)
          file := Function.update k.file k.next file
          offset := Function.update k.offset k.next 0
          next := k.next + 1
          lt_next := fun {fd d} hd ↦ by
            by_cases hfd : fd = number
            · rw [hfd, Function.update_self] at hd
              rw [← Option.some.inj hd]
              exact Nat.lt_succ_self _
            · rw [Function.update_of_ne hfd] at hd
              exact Nat.lt_succ_of_lt (k.lt_next hd)
          nonneg := fun {fd d} hd ↦ by
            by_cases hfd : fd = number
            · exact hfd ▸ h.1
            · rw [Function.update_of_ne hfd] at hd
              exact k.nonneg hd })
    else (none, k)

/-- `k'` differs from `k` in one more number, which refers to a new description. -/
structure Opened (number : Int32) (file : File) (k' : Kernel File) : Prop where
  free : k.table number = none
  table_eq : k'.table = Function.update k.table number (some k.next)
  file_eq : k'.file = Function.update k.file k.next file
  offset_eq : k'.offset = Function.update k.offset k.next 0

private theorem openFile_of_free {number : Int32} (file : File) (hnumber : 0 ≤ number)
    (hfree : k.table number = none) :
    ∃ k', k.openFile (some file) number = (some number, k') ∧ k.Opened number file k' := by
  refine ⟨_, dif_pos ⟨hnumber, hfree⟩, hfree, rfl, rfl, rfl⟩

private theorem openFile_cases (file : Option File) (number : Int32) :
    k.openFile file number = (none, k) ∨
      ∃ f k', file = some f ∧ k.openFile file number = (some number, k') ∧
        k.Opened number f k' := by
  cases file with
  | none => exact .inl rfl
  | some f =>
    by_cases h : 0 ≤ number ∧ k.table number = none
    · obtain ⟨k', hopen, hopened⟩ := k.openFile_of_free f h.1 h.2
      exact .inr ⟨f, k', rfl, hopen, hopened⟩
    · exact .inl (dif_neg h)

section Opened

variable {k} {number : Int32} {file : File} {k' : Kernel File}

theorem Opened.fileOf_self (h : k.Opened number file k') : k'.fileOf number = some file := by
  rw [fileOf, h.table_eq, h.file_eq, Function.update_self, Option.map_some, Function.update_self]

theorem Opened.fileOf_of_ne (h : k.Opened number file k') {fd : Int32} (hne : fd ≠ number) :
    k'.fileOf fd = k.fileOf fd := by
  rw [fileOf, fileOf, h.table_eq, h.file_eq, Function.update_of_ne hne]
  refine Option.map_congr fun d hd ↦ ?_
  rw [Function.update_of_ne (k.lt_next hd).ne]

/-- Nothing refers to the new description but the new number. -/
theorem Opened.eq_of_table (h : k.Opened number file k') {fd : Int32}
    (hfd : k'.table fd = some k.next) : fd = number := by
  by_contra hne
  rw [h.table_eq, Function.update_of_ne hne] at hfd
  exact absurd (k.lt_next hfd) (lt_irrefl _)

end Opened

/-- `close` -/
def close (fd : Int32) : Kernel File :=
  { k with
    table := Function.update k.table fd none
    lt_next := fun {fd' d} hd ↦ by
      by_cases hfd : fd' = fd
      · rw [hfd, Function.update_self] at hd
        cases hd
      · exact k.lt_next (Function.update_of_ne hfd _ k.table ▸ hd)
    nonneg := fun {fd' d} hd ↦ by
      by_cases hfd : fd' = fd
      · rw [hfd, Function.update_self] at hd
        cases hd
      · exact k.nonneg (Function.update_of_ne hfd _ k.table ▸ hd) }

/-- After closing, numbers refer to the same files as before, if to any. -/
theorem fileOf_of_close {fd fd' : Int32} {file : File}
    (h : (k.close fd).fileOf fd' = some file) : k.fileOf fd' = some file := by
  have hclose : (k.close fd).fileOf fd' = (Function.update k.table fd none fd').map k.file := rfl
  by_cases hfd : fd' = fd
  · rw [hclose, hfd, Function.update_self] at h
    cases h
  · rwa [hclose, Function.update_of_ne hfd] at h

/-- A new offset for a description. -/
def seek (d : ℕ) (offset : BitVec 64) : Kernel File :=
  { k with offset := Function.update k.offset d offset }

/-- `read`, which fails or delivers at most so many bytes. -/
def read (fd : Int32) (nbyte : SizeT) (limit : Option ℕ) : Option SizeT × Kernel File :=
  match k.table fd, limit with
  | some d, some limit =>
    let result := BitVec.ofNat 64 (min limit (min nbyte.toNat (2 ^ 63 - 1)))
    (some result, k.seek d (k.offset d + result))
  | _, _ => (none, k)

/-- `lseek64`, which fails or moves to a position. -/
def lseek64 (fd : Int32) (target : Option (BitVec 64)) : Option (BitVec 64) × Kernel File :=
  match k.table fd, target with
  | some d, some target => if target.msb then (none, k) else (some target, k.seek d target)
  | _, _ => (none, k)

theorem read_cases (fd : Int32) (nbyte : SizeT) (limit : Option ℕ) :
    k.read fd nbyte limit = (none, k) ∨
      ∃ d result, k.table fd = some d ∧ result.toNat < 2 ^ 63 ∧
        k.read fd nbyte limit = (some result, k.seek d (k.offset d + result)) := by
  unfold read
  split
  · next d limit hd =>
    refine .inr ⟨d, _, hd, ?_, rfl⟩
    rw [BitVec.toNat_ofNat]
    omega
  · exact .inl rfl

theorem lseek64_cases (fd : Int32) (target : Option (BitVec 64)) :
    k.lseek64 fd target = (none, k) ∨
      ∃ d result, k.table fd = some d ∧ k.lseek64 fd target = (some result, k.seek d result) := by
  unfold lseek64
  split
  · next d target hd =>
    split
    · exact .inl rfl
    · exact .inr ⟨d, target, hd, rfl⟩
  · exact .inl rfl

/-- `fread`, which delivers at most so many items, less than half of the address space. The stream
may have read ahead. -/
def fread (fd : Int32) (size nmemb : SizeT) (items : ℕ) (offset : BitVec 64) :
    SizeT × Kernel File :=
  match k.table fd with
  | some d =>
    (BitVec.ofNat 64 (min items (min nmemb.toNat ((2 ^ 63 - 1) / size.toNat))), k.seek d offset)
  | none => (0, k)

private theorem fread_cases (fd : Int32) (size nmemb : SizeT) (items : ℕ) (offset : BitVec 64) :
    k.fread fd size nmemb items offset = (0, k) ∧ k.table fd = none ∨
      ∃ d result, k.table fd = some d ∧ (result * size).toNat < 2 ^ 63 ∧
        k.fread fd size nmemb items offset = (result, k.seek d offset) := by
  unfold fread
  cases hd : k.table fd with
  | none => exact .inl ⟨rfl, rfl⟩
  | some d =>
    refine .inr ⟨d, _, rfl, ?_, rfl⟩
    have hle : min items (min nmemb.toNat ((2 ^ 63 - 1) / size.toNat)) * size.toNat ≤ 2 ^ 63 - 1 :=
      (Nat.mul_le_mul_right _ ((min_le_right _ _).trans (min_le_right _ _))).trans
        (Nat.div_mul_le_self _ _)
    rw [BitVec.toNat_mul, BitVec.toNat_ofNat, Nat.mod_mul_mod]
    exact (Nat.mod_le _ _).trans_lt (Nat.lt_of_le_of_lt hle (by norm_num))

end Kernel

/-! ## Programs -/

/-- What a program does next, and what the system is free to choose. In between, instrumented code
changes shadow memory and the slots. -/
inductive FileEvent (SymExpr : Type)
  | openFile (path : CString) (number : Int32)
  | fopen (pathname : CString) (number : Int32)
  | fopen64 (pathname : CString) (number : Int32)
  | close (fd : Int32)
  | read (fildes : Int32) (buf : UIntPtr) (nbyte : SizeT) (limit : Option ℕ)
  | lseek64 (fd : Int32) (whence : Int32) (target : Option (BitVec 64))
  | fread (fd : Int32) (ptr : UIntPtr) (size nmemb : SizeT) (items : ℕ) (offset : BitVec 64)
  | compute (pages : ShadowPages SymExpr) (slots : Slots SymExpr)

/-- The system and the runtime library. -/
structure FileState (File SymExpr : Type) where
  kernel : Kernel File
  libc : LibcState SymExpr

/-- A buffer that a call has filled from a descriptor. -/
structure Buffer where
  fd : Int32
  addr : UIntPtr
  length : SizeT

/-- A call of a wrapper, and the buffer that it has filled. -/
structure FileCall (File SymExpr : Type) where
  before : FileState File SymExpr
  after : FileState File SymExpr
  filled : Option Buffer

/-- The positions of the bytes that a call has read from a descriptor. -/
def FileCall.bytesRead {File SymExpr : Type} (fd : Int32) (c : FileCall File SymExpr) :
    List SizeT :=
  match c.filled, c.before.kernel.offsetOf fd with
  | some b, some p => if b.fd = fd then offsetsFrom p b.length.toNat else []
  | _, _ => []

/-- The positions of all bytes that calls have read from a descriptor. -/
def bytesRead {File SymExpr : Type} (fd : Int32) (calls : List (Option (FileCall File SymExpr))) :
    List SizeT :=
  calls.flatMap fun call ↦ call.elim [] (FileCall.bytesRead fd)

namespace FileState

variable {File SymExpr : Type} [Backend SymExpr]

/-- One step of a program. Nothing is answered where no wrapper is called. -/
def step (source : InputByteSource) (cfg : Config) (resolve : CString → Option File)
    (s : FileState File SymExpr) :
    FileEvent SymExpr → FileState File SymExpr × Option (FileCall File SymExpr)
  | .openFile path number =>
    let (result, kernel) := s.kernel.openFile (resolve path) number
    let s' : FileState File SymExpr := ⟨kernel, s.libc.openSymbolized cfg path result⟩
    (s', some ⟨s, s', none⟩)
  | .fopen pathname number =>
    let (result, kernel) := s.kernel.openFile (resolve pathname) number
    let s' : FileState File SymExpr := ⟨kernel, s.libc.fopenSymbolized cfg pathname result⟩
    (s', some ⟨s, s', none⟩)
  | .fopen64 pathname number =>
    let (result, kernel) := s.kernel.openFile (resolve pathname) number
    let s' : FileState File SymExpr := ⟨kernel, s.libc.fopen64Symbolized cfg pathname result⟩
    (s', some ⟨s, s', none⟩)
  | .close fd => ({ s with kernel := s.kernel.close fd }, none)
  | .read fildes buf nbyte limit =>
    let (result, kernel) := s.kernel.read fildes nbyte limit
    let s' : FileState File SymExpr :=
      ⟨kernel, s.libc.readSymbolized source fildes buf nbyte result⟩
    (s', some ⟨s, s', result.map fun result ↦ ⟨fildes, buf, result⟩⟩)
  | .lseek64 fd whence target =>
    let (result, kernel) := s.kernel.lseek64 fd target
    let s' : FileState File SymExpr := ⟨kernel, s.libc.lseek64Symbolized fd whence result⟩
    (s', some ⟨s, s', none⟩)
  | .fread fd ptr size nmemb items offset =>
    let (result, kernel) := s.kernel.fread fd size nmemb items offset
    let s' : FileState File SymExpr :=
      ⟨kernel, s.libc.freadSymbolized source fd ptr size nmemb result⟩
    (s', some ⟨s, s', some ⟨fd, ptr, result * size⟩⟩)
  | .compute pages slots => ({ s with libc := { s.libc with pages, slots } }, none)

end FileState

/-! ## The position -/

/-- Reading and seeking, with computations in between. -/
def FileEvent.ReadsOrSeeks {SymExpr : Type} : FileEvent SymExpr → Prop
  | .read _ _ _ _ | .lseek64 _ _ _ | .compute _ _ => True
  | _ => False

namespace FileState

variable {File SymExpr : Type}

/-- The number refers to a description that no other number refers to, and the wrappers have
remembered the number and the offset. -/
structure Tracked (s : FileState File SymExpr) (fd : Int32) (d : ℕ) : Prop where
  remembered : s.libc.inputFileDescriptor = fd
  table_eq : s.kernel.table fd = some d
  own : ∀ fd', s.kernel.table fd' = some d → fd' = fd
  offset_eq : s.kernel.offset d = s.libc.inputOffset

section Tracked

variable {s : FileState File SymExpr} {fd : Int32} {d : ℕ}

theorem Tracked.offsetOf (h : Tracked s fd d) :
    s.kernel.offsetOf fd = some s.libc.inputOffset := by
  rw [Kernel.offsetOf, h.table_eq, Option.map_some, h.offset_eq]

/-- The offset moves, and the remembered position with it. -/
theorem Tracked.seek_self (h : Tracked s fd d) {libc : LibcState SymExpr} {offset : BitVec 64}
    (hfd : libc.inputFileDescriptor = s.libc.inputFileDescriptor)
    (hoffset : libc.inputOffset = offset) : Tracked ⟨s.kernel.seek d offset, libc⟩ fd d where
  remembered := hfd.trans h.remembered
  table_eq := h.table_eq
  own := h.own
  offset_eq := by
    show Function.update s.kernel.offset d offset d = libc.inputOffset
    rw [Function.update_self, hoffset]

/-- The offset of another description moves. -/
theorem Tracked.seek_of_ne (h : Tracked s fd d) {d' : ℕ} (hne : d ≠ d') (offset : BitVec 64)
    {libc : LibcState SymExpr} (hfd : libc.inputFileDescriptor = s.libc.inputFileDescriptor)
    (hoffset : libc.inputOffset = s.libc.inputOffset) :
    Tracked ⟨s.kernel.seek d' offset, libc⟩ fd d where
  remembered := hfd.trans h.remembered
  table_eq := h.table_eq
  own := h.own
  offset_eq := by
    show Function.update s.kernel.offset d' offset d = libc.inputOffset
    rw [Function.update_of_ne hne, h.offset_eq, hoffset]

end Tracked

variable [Backend SymExpr]

open Backend

/-- After the call the remembered position is that of `fd`. The call has labelled the bytes that it
has read from `fd` with the expressions of the input bytes at their positions, has made the bytes
that it has read from elsewhere concrete, and has changed nothing else in shadow memory. -/
structure Labels (fd : Int32) (c : FileCall File SymExpr) : Prop where
  position : c.after.kernel.offsetOf fd = some c.after.libc.inputOffset
  unfilled : c.filled = none → shadowAt c.after.libc.pages = shadowAt c.before.libc.pages
  input : ∀ b p, c.filled = some b → b.fd = fd → c.before.kernel.offsetOf fd = some p →
    shadowAt c.after.libc.pages = rangeUpdate (shadowAt c.before.libc.pages) b.addr b.length.toNat
      fun i ↦ some (symGetInputByte (p + BitVec.ofNat 64 i))
  other : ∀ b, c.filled = some b → b.fd ≠ fd →
    shadowAt c.after.libc.pages
      = rangeUpdate (shadowAt c.before.libc.pages) b.addr b.length.toNat fun _ ↦ none

variable {source : InputByteSource} {cfg : Config} {resolve : CString → Option File}
  {s : FileState File SymExpr} {fd : Int32} {d : ℕ}

/-- A call that fills no buffer and keeps track of the position. -/
theorem Labels.of_unfilled {c : FileCall File SymExpr} (hafter : Tracked c.after fd d)
    (hfilled : c.filled = none) (hpages : c.after.libc.pages = c.before.libc.pages) :
    Labels fd c where
  position := hafter.offsetOf
  unfilled _ := by rw [hpages]
  input b p hb := by
    rw [hfilled] at hb
    cases hb
  other b hb := by
    rw [hfilled] at hb
    cases hb

/-- A call that fills a buffer from the descriptor. -/
private theorem labels_iff_of_input {c : FileCall File SymExpr} (hbefore : Tracked c.before fd d)
    (hafter : Tracked c.after fd d) {b : Buffer} (hfilled : c.filled = some b) (hfd : b.fd = fd) :
    Labels fd c ↔
      shadowAt c.after.libc.pages
        = rangeUpdate (shadowAt c.before.libc.pages) b.addr b.length.toNat
            fun i ↦ some (symGetInputByte (c.before.libc.inputOffset + BitVec.ofNat 64 i)) := by
  constructor
  · exact fun hlabels ↦ hlabels.input b _ hfilled hfd hbefore.offsetOf
  · refine fun hpages ↦
      ⟨hafter.offsetOf, fun hnone ↦ ?_, fun b' p hb' _ hp ↦ ?_, fun b' hb' hne ↦ ?_⟩
    · rw [hfilled] at hnone
      cases hnone
    · obtain rfl := Option.some.inj (hfilled.symm.trans hb')
      obtain rfl := Option.some.inj (hbefore.offsetOf.symm.trans hp)
      exact hpages
    · obtain rfl := Option.some.inj (hfilled.symm.trans hb')
      exact absurd hfd hne

/-- A call that fills a buffer from elsewhere. -/
private theorem Labels.of_other {c : FileCall File SymExpr} (hafter : Tracked c.after fd d)
    {b : Buffer} (hfilled : c.filled = some b) (hfd : b.fd ≠ fd)
    (hpages : shadowAt c.after.libc.pages
      = rangeUpdate (shadowAt c.before.libc.pages) b.addr b.length.toNat fun _ ↦ none) :
    Labels fd c where
  position := hafter.offsetOf
  unfilled hnone := by
    rw [hfilled] at hnone
    cases hnone
  input b' p hb' hb'fd := by
    obtain rfl := Option.some.inj (hfilled.symm.trans hb')
    exact absurd hb'fd hfd
  other b' hb' _ := by
    obtain rfl := Option.some.inj (hfilled.symm.trans hb')
    exact hpages

/-- The input file is opened. -/
theorem tracked_openFile {path : CString} (hpath : LibcState.namesInputFile cfg path = true)
    (hfile : (resolve path).isSome) (hfd : 0 ≤ fd) (hfree : s.kernel.table fd = none) :
    Tracked (step source cfg resolve s (.openFile path fd)).1 fd s.kernel.next := by
  obtain ⟨file, hfile⟩ := Option.isSome_iff_exists.mp hfile
  obtain ⟨k', hopen, hopened⟩ := s.kernel.openFile_of_free file hfd hfree
  obtain ⟨hremembered, hoffset⟩ :=
    LibcState.rememberInputFile_of_true hpath fd (s.libc.setReturn none)
  have hstep : (step source cfg resolve s (.openFile path fd)).1
      = ⟨k', s.libc.openSymbolized cfg path (some fd)⟩ := by
    rw [step, hfile, hopen]
  rw [hstep]
  refine ⟨hremembered, ?_, fun fd' hfd' ↦ hopened.eq_of_table hfd', ?_⟩
  · rw [hopened.table_eq, Function.update_self]
  · rw [hopened.offset_eq, Function.update_self]
    exact hoffset.symm

/-- A read, a seek or a computation keeps track of the position. -/
theorem Tracked.step {event : FileEvent SymExpr} (h : Tracked s fd d)
    (hevent : event.ReadsOrSeeks) : Tracked (FileState.step source cfg resolve s event).1 fd d := by
  cases event with
  | read fildes buf nbyte limit =>
    rw [FileState.step]
    obtain hread | ⟨d', r, hd', hr, hread⟩ := s.kernel.read_cases fildes nbyte limit
    · have hsame := LibcState.samePosition_readSymbolized source s.libc fildes buf nbyte
      rw [hread]
      exact ⟨hsame.inputFileDescriptor_eq.trans h.remembered, h.table_eq, h.own,
        h.offset_eq.trans hsame.inputOffset_eq.symm⟩
    · have hfills := LibcState.fills_readSymbolized source s.libc fildes buf nbyte r
      rw [hread]
      by_cases hfildes : fildes = fd
      · obtain rfl : d = d' := Option.some.inj (h.table_eq.symm.trans (hfildes ▸ hd'))
        have hoffset := (hfills.input (hfildes.trans h.remembered.symm)).1
        exact h.seek_self hfills.inputFileDescriptor_eq (hoffset.trans (by rw [← h.offset_eq]))
      · have hne : d ≠ d' := fun hdd ↦ hfildes (h.own fildes (hdd ▸ hd'))
        have hoffset := (hfills.other (fun heq ↦ hfildes (heq.trans h.remembered))
          (.of_length_lt hr)).1
        exact h.seek_of_ne hne (s.kernel.offset d' + r) hfills.inputFileDescriptor_eq hoffset
  | lseek64 fd' whence target =>
    rw [FileState.step]
    obtain hseek | ⟨d', r, hd', hseek⟩ := s.kernel.lseek64_cases fd' target
    · rw [hseek]
      exact ⟨h.remembered, h.table_eq, h.own, h.offset_eq⟩
    · have hmoves := LibcState.moves_lseek64Symbolized s.libc fd' whence r
      rw [hseek]
      by_cases hfd : fd' = fd
      · obtain rfl : d = d' := Option.some.inj (h.table_eq.symm.trans (hfd ▸ hd'))
        exact h.seek_self hmoves.inputFileDescriptor_eq (hmoves.input (hfd.trans h.remembered.symm))
      · have hne : d ≠ d' := fun hdd ↦ hfd (h.own fd' (hdd ▸ hd'))
        exact h.seek_of_ne hne r hmoves.inputFileDescriptor_eq
          (hmoves.other fun heq ↦ hfd (heq.trans h.remembered))
  | compute pages slots => exact ⟨h.remembered, h.table_eq, h.own, h.offset_eq⟩
  | openFile | fopen | fopen64 | close | fread => exact hevent.elim

/-! ## The labels -/

/-- A step is right exactly if it reads bytes in order, and then the backend has been asked for
these. -/
structure Asks (source : InputByteSource) (fd : Int32) (asked : List SizeT)
    (o : FileState File SymExpr × Option (FileCall File SymExpr)) : Prop where
  labels_iff : (∀ c, o.2 = some c → Labels fd c) ↔
    source.InOrder (asked ++ o.2.elim [] (FileCall.bytesRead fd))
  asked : source.InOrder (asked ++ o.2.elim [] (FileCall.bytesRead fd)) →
    source.Asked o.1.libc.stdinBytes (asked ++ o.2.elim [] (FileCall.bytesRead fd))

variable {asked : List SizeT}

/-- A step that reads nothing from the descriptor. -/
theorem Asks.of_nil {o : FileState File SymExpr × Option (FileCall File SymExpr)}
    (hasked : source.Asked s.libc.stdinBytes asked)
    (hbytes : o.1.libc.stdinBytes = s.libc.stdinBytes)
    (hnil : o.2.elim [] (FileCall.bytesRead fd) = []) (hlabels : ∀ c, o.2 = some c → Labels fd c) :
    Asks source fd asked o := by
  constructor
  · rw [hnil, List.append_nil]
    exact iff_of_true hlabels hasked.inOrder
  · rw [hnil, List.append_nil, hbytes]
    exact fun _ ↦ hasked

theorem Tracked.asks_read (h : Tracked s fd d) (hasked : source.Asked s.libc.stdinBytes asked)
    (fildes : Int32) (buf : UIntPtr) (nbyte : SizeT) (limit : Option ℕ) :
    Asks source fd asked (FileState.step source cfg resolve s (.read fildes buf nbyte limit)) := by
  have hafter :
      Tracked (FileState.step source cfg resolve s (.read fildes buf nbyte limit)).1 fd d :=
    h.step trivial
  rw [FileState.step] at hafter ⊢
  obtain hread | ⟨d', r, hd', hr, hread⟩ := s.kernel.read_cases fildes nbyte limit
  · have hsame := LibcState.samePosition_readSymbolized source s.libc fildes buf nbyte
    rw [hread] at hafter ⊢
    refine .of_nil hasked hsame.stdinBytes_eq rfl fun c hc ↦ ?_
    rw [← Option.some.inj hc]
    exact .of_unfilled hafter rfl hsame.pages_eq
  have hfills := LibcState.fills_readSymbolized source s.libc fildes buf nbyte r
  rw [hread] at hafter ⊢
  by_cases hfildes : fildes = fd
  · have hinput := hfildes.trans h.remembered.symm
    -- the bytes asked for are those read
    have hbytes : FileCall.bytesRead fd
        ⟨s, ⟨s.kernel.seek d' (s.kernel.offset d' + r),
          s.libc.readSymbolized source fildes buf nbyte (some r)⟩, some ⟨fildes, buf, r⟩⟩
          = offsetsFrom s.libc.inputOffset r.toNat := by
      rw [FileCall.bytesRead, h.offsetOf]
      exact if_pos hfildes
    constructor
    · dsimp only [Option.map_some, Option.elim_some]
      rw [hbytes, ← hasked.byteFrom_eq_iff, ← rangeUpdate_eq_iff r.isLt.le,
        ← (hfills.input hinput).2]
      refine Iff.trans ?_
        (labels_iff_of_input (c := ⟨s, _, some ⟨fildes, buf, r⟩⟩) h hafter rfl hfildes)
      exact ⟨fun hc ↦ hc _ rfl, fun hright c hc ↦ Option.some.inj hc ▸ hright⟩
    · dsimp only [Option.map_some, Option.elim_some]
      rw [hbytes, hfills.asked hinput]
      exact hasked.more
  · have hother : fildes ≠ s.libc.inputFileDescriptor := fun heq ↦
      hfildes (heq.trans h.remembered)
    refine .of_nil hasked (hfills.notAsked hother) ?_ fun c hc ↦ ?_
    · dsimp only [Option.map_some, Option.elim_some]
      rw [FileCall.bytesRead, h.offsetOf]
      exact if_neg hfildes
    · rw [← Option.some.inj hc]
      exact .of_other hafter rfl hfildes (hfills.other hother (.of_length_lt hr)).2

theorem Tracked.asks_lseek64 (h : Tracked s fd d) (hasked : source.Asked s.libc.stdinBytes asked)
    (fd' whence : Int32) (target : Option (BitVec 64)) :
    Asks source fd asked (FileState.step source cfg resolve s (.lseek64 fd' whence target)) := by
  have hafter : Tracked (FileState.step source cfg resolve s (.lseek64 fd' whence target)).1 fd d :=
    h.step trivial
  rw [FileState.step] at hafter ⊢
  obtain hseek | ⟨d', r, -, hseek⟩ := s.kernel.lseek64_cases fd' target
  · rw [hseek] at hafter ⊢
    refine .of_nil hasked rfl rfl fun c hc ↦ ?_
    rw [← Option.some.inj hc]
    exact .of_unfilled hafter rfl rfl
  · have hmoves := LibcState.moves_lseek64Symbolized s.libc fd' whence r
    rw [hseek] at hafter ⊢
    refine .of_nil hasked hmoves.stdinBytes_eq rfl fun c hc ↦ ?_
    rw [← Option.some.inj hc]
    exact .of_unfilled hafter rfl hmoves.pages_eq

theorem Tracked.asks (h : Tracked s fd d) (hasked : source.Asked s.libc.stdinBytes asked)
    {event : FileEvent SymExpr} (hevent : event.ReadsOrSeeks) :
    Asks source fd asked (FileState.step source cfg resolve s event) := by
  cases event with
  | read fildes buf nbyte limit => exact h.asks_read hasked fildes buf nbyte limit
  | lseek64 fd' whence target => exact h.asks_lseek64 hasked fd' whence target
  | compute pages slots => exact .of_nil hasked rfl rfl fun c hc ↦ nomatch hc
  | openFile | fopen | fopen64 | close | fread => exact hevent.elim

/-- The remembered position is that of the descriptor, and every call has labelled what it has
read. -/
def ReadsFollowPosition (fd : Int32)
    (run : FileState File SymExpr × List (Option (FileCall File SymExpr))) : Prop :=
  run.1.kernel.offsetOf fd = some run.1.libc.inputOffset ∧ ∀ c, some c ∈ run.2 → Labels fd c

/-- The position is right at the end of any run, and the labels are if the bytes have been read in
order. -/
theorem Tracked.run_iff (h : Tracked s fd d) (hasked : source.Asked s.libc.stdinBytes [])
    {events : List (FileEvent SymExpr)} (hevents : ∀ event ∈ events, event.ReadsOrSeeks) :
    ReadsFollowPosition fd (Machine.run (FileState.step source cfg resolve) s events) ↔
      source.InOrder
        (bytesRead fd (Machine.run (FileState.step source cfg resolve) s events).2) := by
  have hkeep : ∀ (t : FileState File SymExpr) event, Tracked t fd d → event.ReadsOrSeeks →
      Tracked (FileState.step source cfg resolve t event).1 fd d ∧ True :=
    fun t event ht hevent ↦ ⟨ht.step hevent, trivial⟩
  obtain ⟨hlast, -⟩ := Machine.run_keeps (Q := fun _ ↦ True) hkeep h
    (Machine.Along.of_forall s hevents)
  -- a record of the bytes that have been asked for
  let collect (t : FileState File SymExpr) (event : FileEvent SymExpr) : List SizeT :=
    (FileState.step source cfg resolve t event).2.elim [] (FileCall.bytesRead fd)
  let step := Machine.record collect (FileState.step source cfg resolve)
  have hasks : ∀ (r : List SizeT × FileState File SymExpr) event,
      Tracked r.2 fd d ∧ source.Asked r.2.libc.stdinBytes r.1 → event.ReadsOrSeeks →
        Asks source fd r.1 (FileState.step source cfg resolve r.2 event) :=
    fun r event hr hevent ↦ hr.1.asks hr.2 hevent
  have hlabels : (∀ c, some c ∈ (Machine.run step ([], s) events).2 → Labels fd c) ↔
      Machine.Along step (fun r event ↦ source.InOrder (r.1 ++ collect r.2 event)) ([], s) events :=
    Machine.run_some_iff (fun r event hr hevent ↦ (hasks r event hr hevent).labels_iff)
      (fun r event hr hevent hright ↦ ⟨hr.1.step hevent,
        (hasks r event hr hevent).asked ((hasks r event hr hevent).labels_iff.mp hright)⟩)
      ⟨h, hasked⟩ hevents
  have hrecord : (Machine.run step ([], s) events).1.1
      = [] ++ bytesRead fd (Machine.run (FileState.step source cfg resolve) s events).2 :=
    Machine.record_answers (FileState.step source cfg resolve)
      (fun call ↦ call.elim [] (FileCall.bytesRead fd)) [] s events
  rw [(Machine.run_record collect (FileState.step source cfg resolve) [] s events).2,
    Machine.along_record_iff (fun _ _ ↦ InputByteSource.InOrder.of_append)
      InputByteSource.inOrder_nil, hrecord, List.nil_append] at hlabels
  rw [ReadsFollowPosition, and_iff_right hlast.offsetOf]
  exact hlabels

/-- Opening the input file labels nothing. -/
theorem Tracked.readsFollowPosition_open {path : CString}
    (h : Tracked (FileState.step source cfg resolve s (.openFile path fd)).1 fd d)
    (events : List (FileEvent SymExpr)) :
    ReadsFollowPosition fd
        (Machine.run (FileState.step source cfg resolve) s (.openFile path fd :: events)) ↔
      ReadsFollowPosition fd (Machine.run (FileState.step source cfg resolve)
        (FileState.step source cfg resolve s (.openFile path fd)).1 events) := by
  have hfirst : Labels fd ⟨s, (FileState.step source cfg resolve s (.openFile path fd)).1, none⟩ :=
    .of_unfilled h rfl (LibcState.pages_openSymbolized cfg path _ s.libc)
  refine and_congr_right' ⟨fun hrun c hc ↦ hrun c (List.mem_cons_of_mem _ hc), fun hrun c hc ↦ ?_⟩
  rcases List.mem_cons.mp hc with heq | hc
  · rw [Option.some.inj heq]
    exact hfirst
  · exact hrun c hc

private theorem asked_openFile (hnew : s.libc.stdinBytes = []) (path : CString) :
    source.Asked (step source cfg resolve s (.openFile path fd)).1.libc.stdinBytes [] := by
  have hbytes : (step source cfg resolve s (.openFile path fd)).1.libc.stdinBytes = [] :=
    (LibcState.stdinBytes_openSymbolized cfg path _ s.libc).trans hnew
  rw [hbytes]
  exact InputByteSource.asked_nil

/-- From the opening of the input file on, the remembered position is that of its descriptor, and
every byte read gets the expression of the input byte at its position or none, exactly if with the
simple backend the bytes of the file are read in order. -/
theorem readsFollowPosition_iff {path : CString}
    (hpath : LibcState.namesInputFile cfg path = true) (hfile : (resolve path).isSome)
    (hfd : 0 ≤ fd) (hfree : s.kernel.table fd = none) (hnew : s.libc.stdinBytes = [])
    {events : List (FileEvent SymExpr)} (hevents : ∀ event ∈ events, event.ReadsOrSeeks) :
    let run := Machine.run (FileState.step source cfg resolve) s (.openFile path fd :: events)
    ReadsFollowPosition fd run ↔ source.InOrder (bytesRead fd run.2) := by
  have hopen : Tracked (step source cfg resolve s (.openFile path fd)).1 fd s.kernel.next :=
    tracked_openFile hpath hfile hfd hfree
  exact (hopen.readsFollowPosition_open events).trans
    (hopen.run_iff (asked_openFile hnew path) hevents)

/-! ## The file -/

/-- If the remembered number is open, then it refers to the input file. -/
def RefersToInput (cfg : Config) (resolve : CString → Option File) (s : FileState File SymExpr) :
    Prop :=
  ∀ file, s.kernel.fileOf s.libc.inputFileDescriptor = some file →
    resolve cfg.inputFile = some file

/-- If the path is opened under the number, and the path contains the name of the input file or the
number is the one that is remembered, then the path leads to the input file. -/
def ProperOpen (cfg : Config) (resolve : CString → Option File) (s : FileState File SymExpr)
    (path : CString) (number : Int32) : Prop :=
  (s.kernel.openFile (resolve path) number).1 = some number →
    LibcState.namesInputFile cfg path = true ∨ number = s.libc.inputFileDescriptor →
      resolve path = resolve cfg.inputFile

/-- Every file that is opened is opened properly. -/
def Proper (cfg : Config) (resolve : CString → Option File) (s : FileState File SymExpr) :
    FileEvent SymExpr → Prop
  | .openFile path number | .fopen path number | .fopen64 path number =>
    ProperOpen cfg resolve s path number
  | _ => True

/-- If a byte of the buffer that the call has filled has the expression of an input byte, then the
descriptor refers to the input file. -/
def OnlyInputFile (cfg : Config) (resolve : CString → Option File) (c : FileCall File SymExpr) :
    Prop :=
  ∀ b, c.filled = some b →
    (∃ i < b.length.toNat, ∃ p, shadowAt c.after.libc.pages (b.addr + BitVec.ofNat 64 i)
      = some (symGetInputByte p)) →
    ∃ file, c.before.kernel.fileOf b.fd = some file ∧ resolve cfg.inputFile = some file

theorem OnlyInputFile.of_unfilled {c : FileCall File SymExpr} (h : c.filled = none) :
    OnlyInputFile cfg resolve c := fun b hb ↦ by
  rw [h] at hb
  cases hb

/-- A call that fills a buffer from an open descriptor. -/
theorem OnlyInputFile.of_fills {c : FileCall File SymExpr} {b : Buffer}
    (hb : c.filled = some b) (hs : RefersToInput cfg resolve c.before)
    (hopen : c.before.kernel.table b.fd = some d)
    (hfills : LibcState.Fills source c.before.libc c.after.libc b.fd b.addr b.length)
    (hlen : b.length.toNat < 2 ^ 63) : OnlyInputFile cfg resolve c := by
  rintro b' hb' ⟨i, hi, p, hp⟩
  obtain rfl : b = b' := Option.some.inj (hb.symm.trans hb')
  have hfile : c.before.kernel.fileOf b.fd = some (c.before.kernel.file d) := by
    rw [Kernel.fileOf, hopen, Option.map_some]
  refine ⟨_, hfile, hs _ ?_⟩
  by_cases hfd : b.fd = c.before.libc.inputFileDescriptor
  · rw [← hfd, hfile]
  -- otherwise the buffer is concrete
  · rw [(hfills.other hfd (.of_length_lt hlen)).2, rangeUpdate_add_ofNat _ _ _ hi (by omega)] at hp
    cases hp

theorem RefersToInput.openFile (h : RefersToInput cfg resolve s) {path : CString} {number : Int32}
    (hproper : ProperOpen cfg resolve s path number) :
    RefersToInput cfg resolve (step source cfg resolve s (.openFile path number)).1 := by
  rw [step]
  obtain hopen | ⟨file, k', hfile, hopen, hopened⟩ :=
    s.kernel.openFile_cases (resolve path) number
  · rw [hopen]
    exact h
  · rw [hopen]
    have hproper := hproper (by rw [hopen])
    have hinput : LibcState.namesInputFile cfg path = true ∨ number = s.libc.inputFileDescriptor →
        ∀ file', k'.fileOf number = some file' → resolve cfg.inputFile = some file' := by
      intro hcase file' hfile'
      rw [← hproper hcase, hfile, ← hopened.fileOf_self, hfile']
    intro file' hfile'
    cases hnames : LibcState.namesInputFile cfg path with
    | true =>
      have hremembered :=
        (LibcState.rememberInputFile_of_true hnames number (s.libc.setReturn none)).1
      refine hinput (.inl hnames) file' ?_
      rw [← hremembered]
      exact hfile'
    | false =>
      have hsame := LibcState.rememberInputFile_of_false hnames number (s.libc.setReturn none)
      have hold : k'.fileOf s.libc.inputFileDescriptor = some file' := by
        rw [← hfile']
        exact congrArg (fun libc ↦ k'.fileOf libc.inputFileDescriptor) hsame.symm
      by_cases hfd : s.libc.inputFileDescriptor = number
      · exact hinput (.inr hfd.symm) file' (hfd ▸ hold)
      · exact h file' (hopened.fileOf_of_ne hfd ▸ hold)

theorem RefersToInput.close (h : RefersToInput cfg resolve s) (fd : Int32) :
    RefersToInput cfg resolve (step source cfg resolve s (.close fd)).1 := by
  exact fun file hfile ↦ h file (s.kernel.fileOf_of_close hfile)

omit [Backend SymExpr] in
/-- Reading and seeking leave the numbers alone. -/
theorem RefersToInput.of_fileOf (h : RefersToInput cfg resolve s) {t : FileState File SymExpr}
    (hkernel : t.kernel.fileOf = s.kernel.fileOf)
    (hfd : t.libc.inputFileDescriptor = s.libc.inputFileDescriptor) :
    RefersToInput cfg resolve t := by
  intro file hfile
  rw [hkernel, hfd] at hfile
  exact h file hfile

theorem RefersToInput.read (h : RefersToInput cfg resolve s) (fildes : Int32) (buf : UIntPtr)
    (nbyte : SizeT) (limit : Option ℕ) :
    RefersToInput cfg resolve (step source cfg resolve s (.read fildes buf nbyte limit)).1 ∧
      ∀ c, (step source cfg resolve s (.read fildes buf nbyte limit)).2 = some c →
        OnlyInputFile cfg resolve c := by
  rw [step]
  obtain hread | ⟨d, r, hd, hr, hread⟩ := s.kernel.read_cases fildes nbyte limit
  · have hsame := LibcState.samePosition_readSymbolized source s.libc fildes buf nbyte
    rw [hread]
    refine ⟨h.of_fileOf rfl hsame.inputFileDescriptor_eq, fun c hc ↦ ?_⟩
    rw [← Option.some.inj hc]
    exact .of_unfilled rfl
  · have hfills := LibcState.fills_readSymbolized source s.libc fildes buf nbyte r
    rw [hread]
    refine ⟨h.of_fileOf rfl hfills.inputFileDescriptor_eq, fun c hc ↦ ?_⟩
    rw [← Option.some.inj hc]
    exact .of_fills rfl h hd hfills hr

theorem RefersToInput.lseek64 (h : RefersToInput cfg resolve s) (fd whence : Int32)
    (target : Option (BitVec 64)) :
    RefersToInput cfg resolve (step source cfg resolve s (.lseek64 fd whence target)).1 := by
  rw [step]
  obtain hseek | ⟨d, r, -, hseek⟩ := s.kernel.lseek64_cases fd target
  · rw [hseek]
    exact h.of_fileOf rfl rfl
  · rw [hseek]
    exact h.of_fileOf rfl
      (LibcState.moves_lseek64Symbolized s.libc fd whence r).inputFileDescriptor_eq

theorem RefersToInput.fread (h : RefersToInput cfg resolve s) (fd : Int32) (ptr : UIntPtr)
    (size nmemb : SizeT) (items : ℕ) (offset : BitVec 64) :
    RefersToInput cfg resolve
        (step source cfg resolve s (.fread fd ptr size nmemb items offset)).1 ∧
      ∀ c, (step source cfg resolve s (.fread fd ptr size nmemb items offset)).2 = some c →
        OnlyInputFile cfg resolve c := by
  rw [step]
  obtain ⟨hread, -⟩ | ⟨d, r, hd, hr, hread⟩ := s.kernel.fread_cases fd size nmemb items offset
  · have hfills := LibcState.fills_freadSymbolized source s.libc fd ptr size nmemb 0
    rw [hread]
    refine ⟨h.of_fileOf rfl hfills.inputFileDescriptor_eq, fun c hc ↦ ?_⟩
    -- nothing has been filled
    rw [← Option.some.inj hc]
    rintro b hb ⟨i, hi, -⟩
    rw [← Option.some.inj hb, BitVec.toNat_mul] at hi
    simp at hi
  · have hfills := LibcState.fills_freadSymbolized source s.libc fd ptr size nmemb r
    rw [hread]
    refine ⟨h.of_fileOf rfl hfills.inputFileDescriptor_eq, fun c hc ↦ ?_⟩
    rw [← Option.some.inj hc]
    exact .of_fills rfl h hd hfills hr

theorem RefersToInput.step {event : FileEvent SymExpr} (h : RefersToInput cfg resolve s)
    (hevent : Proper cfg resolve s event) :
    RefersToInput cfg resolve (step source cfg resolve s event).1 ∧
      ∀ c, (FileState.step source cfg resolve s event).2 = some c →
        OnlyInputFile cfg resolve c := by
  cases event with
  | openFile path number =>
    refine ⟨h.openFile hevent, fun c hc ↦ ?_⟩
    rw [← Option.some.inj hc]
    exact .of_unfilled rfl
  | fopen pathname number =>
    have hopen : RefersToInput cfg resolve
        (FileState.step source cfg resolve s (.openFile pathname number)).1 := h.openFile hevent
    refine ⟨hopen, fun c hc ↦ ?_⟩
    rw [← Option.some.inj hc]
    exact .of_unfilled rfl
  | fopen64 pathname number =>
    have hopen : RefersToInput cfg resolve
        (FileState.step source cfg resolve s (.openFile pathname number)).1 := h.openFile hevent
    refine ⟨hopen, fun c hc ↦ ?_⟩
    rw [← Option.some.inj hc]
    exact .of_unfilled rfl
  | close fd => exact ⟨h.close fd, fun c hc ↦ nomatch hc⟩
  | read fildes buf nbyte limit => exact h.read fildes buf nbyte limit
  | lseek64 fd whence target =>
    refine ⟨h.lseek64 fd whence target, fun c hc ↦ ?_⟩
    rw [← Option.some.inj hc]
    exact .of_unfilled rfl
  | fread fd ptr size nmemb items offset => exact h.fread fd ptr size nmemb items offset
  | compute pages slots => exact ⟨h, fun c hc ↦ nomatch hc⟩

omit [Backend SymExpr] in
/-- When a program starts no number is remembered. -/
theorem refersToInput_start (hinput : cfg.inputFile ≠ []) (k : Kernel File) :
    RefersToInput cfg resolve ⟨k, LibcState.initLibcWrappers cfg (.init : LibcState SymExpr)⟩ := by
  have hfd : (LibcState.initLibcWrappers cfg (.init : LibcState SymExpr)).inputFileDescriptor
      = -1 := by
    unfold LibcState.initLibcWrappers
    split_ifs with hconcrete hempty
    · rfl
    · exact absurd (List.isEmpty_iff.mp hempty) hinput
    · rfl
  intro file hfile
  rw [hfd, Kernel.fileOf, Option.map_eq_some_iff] at hfile
  obtain ⟨d, hd, -⟩ := hfile
  exact absurd (k.nonneg hd) (by decide)

/-- As long as every file is opened properly, only the input file gives symbolic bytes. -/
theorem onlyInputFile_of_proper (hinput : cfg.inputFile ≠ []) (k : Kernel File)
    {events : List (FileEvent SymExpr)}
    (hevents : Machine.Along (FileState.step source cfg resolve) (Proper cfg resolve)
      ⟨k, LibcState.initLibcWrappers cfg .init⟩ events) :
    ∀ c, some c ∈ (Machine.run (FileState.step source cfg resolve)
        ⟨k, LibcState.initLibcWrappers cfg .init⟩ events).2 → OnlyInputFile cfg resolve c := by
  have hstep : ∀ (t : FileState File SymExpr) event, RefersToInput cfg resolve t →
      Proper cfg resolve t event →
        RefersToInput cfg resolve (FileState.step source cfg resolve t event).1 ∧
          ∀ c, (FileState.step source cfg resolve t event).2 = some c →
            OnlyInputFile cfg resolve c :=
    fun t event ht hevent ↦ ht.step hevent
  have hanswers := (Machine.run_keeps (Q := fun o ↦ ∀ c, o = some c → OnlyInputFile cfg resolve c)
    hstep (refersToInput_start hinput k) hevents).2
  exact fun c hc ↦ hanswers _ hc c rfl

end FileState

/-! ## Three programs -/

namespace FileState

/-- The name of the input file is `in`. -/
def inputIsIn : Config := ⟨true, false, [0x69, 0x6e]⟩

/-- The files `in` and `log`. -/
def inAndLog (path : CString) : Option ℕ :=
  if path = [0x69, 0x6e] then some 1 else if path = [0x6c, 0x6f, 0x67] then some 2 else none

/-- When a program starts, with a terminal. -/
def started : FileState ℕ Z3Ast := ⟨.standard 0, LibcState.initLibcWrappers inputIsIn .init⟩

/-- The input file is opened and closed, and another file gets its number and is read from. -/
def reuseNumber : List (FileEvent Z3Ast) :=
  [.openFile [0x69, 0x6e] 3, .close 3, .openFile [0x6c, 0x6f, 0x67] 3, .read 3 0x1000 1 (some 1)]

/-- The number of the input file has been given away when it is read from. -/
theorem not_onlyInputFile :
    ¬ ∀ (source : InputByteSource) (cfg : Config) (resolve : CString → Option ℕ) (k : Kernel ℕ)
      (events : List (FileEvent Z3Ast)), cfg.inputFile ≠ [] →
        ∀ c, some c ∈ (Machine.run (FileState.step source cfg resolve)
          ⟨k, LibcState.initLibcWrappers cfg .init⟩ events).2 → OnlyInputFile cfg resolve c := by
  intro h
  let s := (Machine.run (FileState.step .simple inputIsIn inAndLog) started
    (reuseNumber.take 3)).1
  have hfd : (3 : Int32) = s.libc.inputFileDescriptor := rfl
  have hfills := LibcState.fills_readSymbolized .simple s.libc 3 0x1000 1 1
  have hlabel : shadowAt (s.libc.readSymbolized .simple 3 0x1000 1 (some 1)).pages 0x1000
      = some (Backend.symGetInputByte 0) := by
    rw [(hfills.input hfd).2]
    rfl
  obtain ⟨file, hfile, hinput⟩ := h .simple inputIsIn inAndLog (.standard 0) reuseNumber (by decide)
    ⟨s, (step .simple inputIsIn inAndLog s (.read 3 0x1000 1 (some 1))).1, some ⟨3, 0x1000, 1⟩⟩
    (List.mem_of_getElem? (i := 3) rfl) _ rfl ⟨0, by decide, 0, hlabel⟩
  have hlog : s.kernel.fileOf 3 = some 2 := rfl
  have hin : inAndLog inputIsIn.inputFile = some 1 := rfl
  rw [← Option.some.inj (hlog.symm.trans hfile), hin] at hinput
  cases hinput

/-- A byte at the end of the input file is read before one at its beginning. -/
def readLastFirst : List (FileEvent Z3Ast) :=
  [.lseek64 3 0 (some 5), .read 3 0x1000 1 (some 1), .lseek64 3 0 (some 0),
    .read 3 0x1001 1 (some 1)]

/-- With the simple backend the second byte has no expression, and the first one that of another
byte. -/
theorem not_readsFollowPosition :
    ¬ ∀ (source : InputByteSource) (cfg : Config) (resolve : CString → Option ℕ)
      (s : FileState ℕ Z3Ast) (path : CString) (fd : Int32) (events : List (FileEvent Z3Ast)),
        LibcState.namesInputFile cfg path = true → (resolve path).isSome → 0 ≤ fd →
          s.kernel.table fd = none → s.libc.stdinBytes = [] →
            (∀ event ∈ events, event.ReadsOrSeeks) →
              ReadsFollowPosition fd (Machine.run (FileState.step source cfg resolve) s
                (.openFile path fd :: events)) := by
  intro h
  have hevents : ∀ event ∈ readLastFirst, event.ReadsOrSeeks := by
    simp [readLastFirst, FileEvent.ReadsOrSeeks]
  have hopen : Tracked (step .simple inputIsIn inAndLog started (.openFile [0x69, 0x6e] 3)).1 3 1 :=
    tracked_openFile (by decide) (by decide) (by decide) rfl
  have hrun := (hopen.readsFollowPosition_open readLastFirst).mp
    (h .simple inputIsIn inAndLog started [0x69, 0x6e] 3 readLastFirst (by decide) (by decide)
      (by decide) rfl rfl hevents)
  have horder := (hopen.run_iff (asked_openFile rfl [0x69, 0x6e]) hevents).mp hrun rfl
  obtain ⟨earlier, hmem, -⟩ := horder [] 5 [0] rfl 0 (by decide)
  exact absurd hmem List.not_mem_nil

/-- The input file is read in two portions, with a read from elsewhere in between, and rewound. -/
def readAndRewind : List (FileEvent Z3Ast) :=
  [.read 3 0x1000 4 (some 3), .read 0 0x2000 4 none, .read 3 0x1003 4 (some 4),
    .lseek64 3 0 (some 0), .read 3 0x1000 2 (some 2)]

/-- The bytes of the input file are read in order, and some of them again. -/
theorem readsFollowPosition_iff_readAndRewind :
    let run := Machine.run (FileState.step .simple inputIsIn inAndLog) started
      (.openFile [0x69, 0x6e] 3 :: readAndRewind)
    bytesRead 3 run.2 = [0, 1, 2, 3, 4, 5, 6, 0, 1] ∧
      (ReadsFollowPosition 3 run ↔ InputByteSource.InOrder .simple (bytesRead 3 run.2)) :=
  ⟨by rfl, readsFollowPosition_iff (by decide) (by decide) (by decide) rfl rfl
    (by simp [readAndRewind, FileEvent.ReadsOrSeeks])⟩

/-- Another file is opened before the input file, and stays open. -/
theorem onlyInputFile_readAndRewind :
    let answers := (Machine.run (FileState.step .simple inputIsIn inAndLog) started
      ([.openFile [0x6c, 0x6f, 0x67] 4, .openFile [0x69, 0x6e] 3] ++ readAndRewind)).2
    answers.length = 7 ∧
      ∀ c, some c ∈ answers → OnlyInputFile inputIsIn inAndLog c :=
  ⟨rfl, onlyInputFile_of_proper (by decide) (.standard 0)
    ⟨fun _ hcase ↦ absurd hcase (by decide), fun _ _ ↦ rfl, trivial, trivial, trivial, trivial,
      trivial, trivial⟩⟩

end FileState

end Adacc
