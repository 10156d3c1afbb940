import Adacc.Runtime.MemoryEvents
import Adacc.Runtime.MemoryValues
import Adacc.Runtime.PageEntries

/-!
# Shadow memory holds bytes

Every entry of shadow memory should be null or an expression of eight bits: readers assert it
wherever they look at an entry, and joining the entries of a range yields an expression of the right
width only then. `entriesOf` are the entries that an event looks at, in order.

Entries are made by `_sym_write_memory`, which extracts them, and by the functions that fill a
buffer from the input; copies move them. The remaining source is `_sym_memset`, which stores its
argument as it is. The call that instrumentation inserts passes the expression of a byte. The
wrapper for the library function passes the one of its second parameter, which is an `int`. So the
invariant holds in every run exactly if `memset` is never called with a symbolic value
(`holdsBytes_iff`).
-/

namespace Adacc

open ModularRange GarbageCollection

variable {SymExpr : Type}

/-! ## What readers look at -/

/-- The entries that `std::all_of` looks at in `isConcrete`. -/
def stdAllNullEntries (pages : ShadowPages SymExpr) (last : ReadShadowIterator) :
    ℕ → ReadShadowIterator → List (Option SymExpr)
  | 0, _ => []
  | n + 1, first =>
    if first.address_ = last.address_ then []
    else
      first.deref pages ::
        if (first.deref pages).isNone then stdAllNullEntries pages last n (first.next pages) else []

def isConcreteEntries (pages : ShadowPages SymExpr) (addr : UIntPtr) (nbytes : SizeT) :
    List (Option SymExpr) :=
  if pageStart addr = pageStart (addr + nbytes) ∧ (pages.lookup (pageStart addr)).isNone then []
  else
    let first := ReadShadowIterator.mk' pages addr
    let last := ReadShadowIterator.mk' pages (addr + nbytes)
    stdAllNullEntries pages last (last.address_ - first.address_).toNat first

/-- `isConcrete(a, n) && isConcrete(b, m)` -/
def bothConcreteEntries (pages : ShadowPages SymExpr) (a : UIntPtr) (n : SizeT) (b : UIntPtr)
    (m : SizeT) : List (Option SymExpr) :=
  isConcreteEntries pages a n ++ if isConcrete pages a n then isConcreteEntries pages b m else []

/-- The entries that `std::copy` looks at. -/
def stdCopyEntries (last : ReadShadowIterator) :
    ℕ → ReadShadowIterator → WriteShadowIterator → ShadowPages SymExpr → List (Option SymExpr)
  | 0, _, _, _ => []
  | n + 1, first, result, pages =>
    if first.address_ = last.address_ then []
    else
      let next := result.next (result.assign pages (first.deref pages))
      first.deref pages :: stdCopyEntries last n (first.next next.2) next.1 next.2

/-- The entries that `std::copy_backward` looks at. -/
def stdCopyBackwardEntries (first : ReadShadowIterator) :
    ℕ → ReadShadowIterator → WriteShadowIterator → ShadowPages SymExpr → List (Option SymExpr)
  | 0, _, _, _ => []
  | n + 1, last, result, pages =>
    if first.address_ = last.address_ then []
    else
      let last := last.prev pages
      let prev := result.prev pages
      last.deref pages ::
        stdCopyBackwardEntries first n last prev.1 (prev.1.assign prev.2 (last.deref pages))

/-- The entries that the loop of `_sym_read_memory` looks at. -/
def stdAccumulateEntries (pages : ShadowPages SymExpr) (last : ReadShadowIterator) :
    ℕ → ReadShadowIterator → List (Option SymExpr)
  | 0, _ => []
  | n + 1, first =>
    if first.address_ = last.address_ then []
    else first.deref pages :: stdAccumulateEntries pages last n (first.next pages)

/-- `std::copy` from a view of `length` bytes at `src` to one at `dest`, with the iterators. -/
def copyEntries (leftToRight : Bool) (dest src : UIntPtr) (length : SizeT)
    (pages : ShadowPages SymExpr) : List (Option SymExpr) :=
  let (destBegin, pages') := WriteShadowIterator.mk' pages dest
  let seen := if leftToRight then pages else pages'
  stdCopyEntries (ReadShadowIterator.mk' seen (src + length)) length.toNat
    (ReadShadowIterator.mk' seen src) destBegin pages'

def symMemcpyEntries (leftToRight : Bool) (dest src : UIntPtr) (length : SizeT)
    (pages : ShadowPages SymExpr) : List (Option SymExpr) :=
  bothConcreteEntries pages src length dest length ++
    if isConcrete pages src length && isConcrete pages dest length then []
    else copyEntries leftToRight dest src length pages

def symMemmoveEntries (leftToRight : Bool) (dest src : UIntPtr) (length : SizeT)
    (pages : ShadowPages SymExpr) : List (Option SymExpr) :=
  bothConcreteEntries pages src length dest length ++
    if isConcrete pages src length && isConcrete pages dest length then []
    else if dest > src then
      let (destEnd, pages') := WriteShadowIterator.mk' pages (dest + length)
      let seen := if leftToRight then pages else pages'
      stdCopyBackwardEntries (ReadShadowIterator.mk' seen src) length.toNat
        (ReadShadowIterator.mk' seen (src + length)) destEnd pages'
    else copyEntries leftToRight dest src length pages

/-- `_sym_memset` and `_sym_write_memory` with a null expression test the range. -/
def clearEntries (value : Option SymExpr) (addr : UIntPtr) (length : SizeT)
    (pages : ShadowPages SymExpr) : List (Option SymExpr) :=
  if value.isNone then isConcreteEntries pages addr length else []

def symReadMemoryEntries (pages : ShadowPages SymExpr) (addr : UIntPtr) (length : SizeT) :
    List (Option SymExpr) :=
  isConcreteEntries pages addr length ++
    if isConcrete pages addr length then []
    else
      stdAccumulateEntries pages (ReadShadowIterator.mk' pages (addr + length)) length.toNat
        (ReadShadowIterator.mk' pages addr)

/-- The entries that a call of the runtime library looks at. -/
def ShadowCall.entries (pages : ShadowPages SymExpr) : ShadowCall SymExpr → List (Option SymExpr)
  | .writeMemory addr length expr _ => clearEntries expr addr length pages
  | .memset memory value length => clearEntries value memory length pages
  | .memmove leftToRight dest src length => symMemmoveEntries leftToRight dest src length pages
  | .memcpy leftToRight dest src length => symMemcpyEntries leftToRight dest src length pages
  | .readMemory _ addr length _ => symReadMemoryEntries pages addr length
  | .isConcrete addr length => isConcreteEntries pages addr length

/-- The entries that a wrapper looks at. -/
def LibcState.entries (s : LibcState SymExpr) : LibcCall → List (Option SymExpr)
  | .read fildes buf _ (some result) =>
    if fildes = s.inputFileDescriptor then [] else isConcreteEntries s.pages buf result
  | .fread fd ptr size _ result =>
    if fd = s.inputFileDescriptor then [] else isConcreteEntries s.pages ptr (result * size)
  | .fgets fd str _ mem =>
    if fd = s.inputFileDescriptor then [] else isConcreteEntries s.pages str (strlen mem str)
  | .memcpy leftToRight dest src n => symMemcpyEntries leftToRight dest src n s.pages
  | .memset memory n => clearEntries (s.param 1) memory n s.pages
  | .memmove leftToRight dest src n => symMemmoveEntries leftToRight dest src n s.pages
  | .strncpy leftToRight mem dest src n =>
    let copied := BitVec.ofNat 64 (strlenLoop mem n.toNat src)
    bothConcreteEntries s.pages src copied dest n ++
      if isConcrete s.pages src copied && isConcrete s.pages dest n then []
      else copyEntries leftToRight dest src copied s.pages
  | .strchr mem str _ result =>
    let length := result.elim (strlen mem str) (· - str)
    isConcreteEntries s.pages str length ++
      if isConcrete s.pages str length && (s.param 1).isNone then []
      else (List.range length.toNat).map fun i ↦ shadowAt s.pages (str + BitVec.ofNat 64 i)
  | .memcmp _ a b n _ =>
    bothConcreteEntries s.pages a n b n ++
      if isConcrete s.pages a n && isConcrete s.pages b n then []
      else (List.range n.toNat).flatMap fun i ↦
        [shadowAt s.pages (a + BitVec.ofNat 64 i), shadowAt s.pages (b + BitVec.ofNat 64 i)]
  | _ => []

/-- The entries that an event looks at. -/
def MemoryEvent.entriesOf (s : LibcState SymExpr) : MemoryEvent SymExpr → List (Option SymExpr)
  | .shadow call => call.entries s.pages
  | .libc params call => (s.setParameters params).entries call
  | .calloc _ _ _ _ | .mmap64 _ _ _ => []

/-! ## They look at entries of pages -/

section Entries

variable {P : SymExpr → Prop} {pages : ShadowPages SymExpr}

private theorem nullOr_stdAllNullEntries (h : PagesIn P pages) (last : ReadShadowIterator) (n : ℕ)
    (first : ReadShadowIterator) : ∀ v ∈ stdAllNullEntries pages last n first, NullOr P v := by
  induction n generalizing first with
  | zero => exact List.forall_mem_nil _
  | succ n ih =>
    intro v hv
    unfold stdAllNullEntries at hv
    split at hv
    · exact absurd hv List.not_mem_nil
    · obtain rfl | hv := List.mem_cons.mp hv
      · exact h.nullOr_deref first
      split at hv
      · exact ih (first.next pages) v hv
      · exact absurd hv List.not_mem_nil

theorem nullOr_isConcreteEntries (h : PagesIn P pages) (addr : UIntPtr) (nbytes : SizeT) :
    ∀ v ∈ isConcreteEntries pages addr nbytes, NullOr P v := by
  unfold isConcreteEntries
  split
  · exact List.forall_mem_nil _
  · exact nullOr_stdAllNullEntries h _ _ _

theorem nullOr_bothConcreteEntries (h : PagesIn P pages) (a : UIntPtr) (n : SizeT) (b : UIntPtr)
    (m : SizeT) : ∀ v ∈ bothConcreteEntries pages a n b m, NullOr P v := by
  unfold bothConcreteEntries
  rw [List.forall_mem_append]
  refine ⟨nullOr_isConcreteEntries h a n, ?_⟩
  split
  · exact nullOr_isConcreteEntries h b m
  · exact List.forall_mem_nil _

private theorem nullOr_stdCopyEntries (h : PagesIn P pages) (last : ReadShadowIterator) (n : ℕ)
    (first : ReadShadowIterator) (result : WriteShadowIterator) :
    ∀ v ∈ stdCopyEntries last n first result pages, NullOr P v := by
  induction n generalizing first result pages with
  | zero => exact List.forall_mem_nil _
  | succ n ih =>
    unfold stdCopyEntries
    split
    · exact List.forall_mem_nil _
    · rw [List.forall_mem_cons]
      exact ⟨h.nullOr_deref first, ih ((h.store _ (h.nullOr_deref first)).next result) _ _⟩

private theorem nullOr_stdCopyBackwardEntries (h : PagesIn P pages) (first : ReadShadowIterator)
    (n : ℕ) (last : ReadShadowIterator) (result : WriteShadowIterator) :
    ∀ v ∈ stdCopyBackwardEntries first n last result pages, NullOr P v := by
  induction n generalizing last result pages with
  | zero => exact List.forall_mem_nil _
  | succ n ih =>
    unfold stdCopyBackwardEntries
    split
    · exact List.forall_mem_nil _
    · rw [List.forall_mem_cons]
      exact ⟨h.nullOr_deref _, ih ((h.prev result).store _ (h.nullOr_deref _)) _ _⟩

private theorem nullOr_stdAccumulateEntries (h : PagesIn P pages) (last : ReadShadowIterator)
    (n : ℕ) (first : ReadShadowIterator) :
    ∀ v ∈ stdAccumulateEntries pages last n first, NullOr P v := by
  induction n generalizing first with
  | zero => exact List.forall_mem_nil _
  | succ n ih =>
    unfold stdAccumulateEntries
    split
    · exact List.forall_mem_nil _
    · rw [List.forall_mem_cons]
      exact ⟨h.nullOr_deref first, ih (first.next pages)⟩

theorem nullOr_copyEntries (h : PagesIn P pages) (leftToRight : Bool) (dest src : UIntPtr)
    (length : SizeT) : ∀ v ∈ copyEntries leftToRight dest src length pages, NullOr P v :=
  nullOr_stdCopyEntries (h.mk' dest) _ _ _ _

private theorem nullOr_symMemcpyEntries (h : PagesIn P pages) (leftToRight : Bool)
    (dest src : UIntPtr)
    (length : SizeT) : ∀ v ∈ symMemcpyEntries leftToRight dest src length pages, NullOr P v := by
  unfold symMemcpyEntries
  rw [List.forall_mem_append]
  refine ⟨nullOr_bothConcreteEntries h src length dest length, ?_⟩
  split
  · exact List.forall_mem_nil _
  · exact nullOr_copyEntries h leftToRight dest src length

private theorem nullOr_symMemmoveEntries (h : PagesIn P pages) (leftToRight : Bool)
    (dest src : UIntPtr)
    (length : SizeT) : ∀ v ∈ symMemmoveEntries leftToRight dest src length pages, NullOr P v := by
  unfold symMemmoveEntries
  rw [List.forall_mem_append]
  refine ⟨nullOr_bothConcreteEntries h src length dest length, ?_⟩
  split
  · exact List.forall_mem_nil _
  split
  · exact nullOr_stdCopyBackwardEntries (h.mk' (dest + length)) _ _ _ _
  · exact nullOr_copyEntries h leftToRight dest src length

theorem nullOr_clearEntries (h : PagesIn P pages) (value : Option SymExpr) (addr : UIntPtr)
    (length : SizeT) : ∀ v ∈ clearEntries value addr length pages, NullOr P v := by
  unfold clearEntries
  split
  · exact nullOr_isConcreteEntries h addr length
  · exact List.forall_mem_nil _

private theorem nullOr_symReadMemoryEntries (h : PagesIn P pages) (addr : UIntPtr)
    (length : SizeT) : ∀ v ∈ symReadMemoryEntries pages addr length, NullOr P v := by
  unfold symReadMemoryEntries
  rw [List.forall_mem_append]
  refine ⟨nullOr_isConcreteEntries h addr length, ?_⟩
  split
  · exact List.forall_mem_nil _
  · exact nullOr_stdAccumulateEntries h _ _ _

private theorem nullOr_shadowCallEntries (h : PagesIn P pages) (call : ShadowCall SymExpr) :
    ∀ v ∈ call.entries pages, NullOr P v := by
  cases call with
  | writeMemory addr length expr littleEndian => exact nullOr_clearEntries h expr addr length
  | memset memory value length => exact nullOr_clearEntries h value memory length
  | memmove leftToRight dest src length =>
    exact nullOr_symMemmoveEntries h leftToRight dest src length
  | memcpy leftToRight dest src length =>
    exact nullOr_symMemcpyEntries h leftToRight dest src length
  | readMemory mem addr length littleEndian => exact nullOr_symReadMemoryEntries h addr length
  | isConcrete addr length => exact nullOr_isConcreteEntries h addr length

/-- A buffer is tested before it is cleared, and not at all where it is filled from the input. -/
theorem nullOr_fillEntries (h : PagesIn P pages) (input : Prop) [Decidable input] (buf : UIntPtr)
    (length : SizeT) :
    ∀ v ∈ if input then [] else isConcreteEntries pages buf length, NullOr P v := by
  split
  · exact List.forall_mem_nil _
  · exact nullOr_isConcreteEntries h buf length

private theorem nullOr_libcEntries {s : LibcState SymExpr} (h : PagesIn P s.pages)
    (call : LibcCall) : ∀ v ∈ s.entries call, NullOr P v := by
  cases call with
  | read fildes buf nbyte result =>
    cases result with
    | none => exact List.forall_mem_nil _
    | some result => exact nullOr_fillEntries h _ buf result
  | fread fd ptr size nmemb result => exact nullOr_fillEntries h _ ptr (result * size)
  | fgets fd str n mem => exact nullOr_fillEntries h _ str (strlen mem str)
  | memcpy leftToRight dest src n => exact nullOr_symMemcpyEntries h leftToRight dest src n
  | memset memory n => exact nullOr_clearEntries h (s.param 1) memory n
  | memmove leftToRight dest src n => exact nullOr_symMemmoveEntries h leftToRight dest src n
  | strncpy leftToRight mem dest src n =>
    unfold LibcState.entries
    rw [List.forall_mem_append]
    refine ⟨nullOr_bothConcreteEntries h src _ dest n, ?_⟩
    split
    · exact List.forall_mem_nil _
    · exact nullOr_copyEntries h leftToRight dest src _
  | strchr mem str c result =>
    unfold LibcState.entries
    rw [List.forall_mem_append]
    refine ⟨nullOr_isConcreteEntries h str _, ?_⟩
    split
    · exact List.forall_mem_nil _
    · rw [List.forall_mem_map]
      exact fun i _ ↦ h.nullOr_shadowAt _
  | memcmp mem a b n equal =>
    unfold LibcState.entries
    rw [List.forall_mem_append]
    refine ⟨nullOr_bothConcreteEntries h a n b n, ?_⟩
    split
    · exact List.forall_mem_nil _
    · intro v hv
      obtain ⟨i, -, hv⟩ := List.mem_flatMap.mp hv
      obtain rfl | hv := List.mem_cons.mp hv
      · exact h.nullOr_shadowAt _
      · rw [List.mem_singleton.mp hv]
        exact h.nullOr_shadowAt _
  | _ => exact List.forall_mem_nil _

/-- Whatever all entries of pages satisfy, readers only see entries that satisfy it. -/
theorem nullOr_entriesOf {s : LibcState SymExpr} (h : PagesIn P s.pages)
    (event : MemoryEvent SymExpr) : ∀ v ∈ event.entriesOf s, NullOr P v := by
  cases event with
  | shadow call => exact nullOr_shadowCallEntries h call
  | libc params call =>
    exact nullOr_libcEntries (s := { s with slots := { s.slots with functionArguments := params } })
      h call
  | calloc params nmemb size block => exact List.forall_mem_nil _
  | mmap64 params len block => exact List.forall_mem_nil _

end Entries

/-! ## What writers store -/

private theorem pagesIn_strncpyPages {P : SymExpr → Prop} {pages : ShadowPages SymExpr}
    (h : PagesIn P pages) (leftToRight : Bool) (dest src : UIntPtr) (n copied : SizeT) :
    PagesIn P (LibcState.strncpyPages leftToRight dest src n copied pages) := by
  unfold LibcState.strncpyPages
  split
  · exact h
  dsimp only
  split
  · exact PagesIn.assignShadow ((h.mk' dest).stdCopyLoop _ _ _ _) (dest + copied)
      fun _ _ ↦ nullOr_none
  · exact (h.mk' dest).stdCopyLoop _ _ _ _

variable [Backend SymExpr]

open Backend SmtLib

/-- Every expression in shadow memory has eight bits. -/
abbrev PagesOfBytes (pages : ShadowPages SymExpr) : Prop := PagesIn (HasBits · 8) pages

private theorem hasBits_symGetInputByte (offset : SizeT) :
    HasBits (symGetInputByte offset : SymExpr) 8 :=
  HasBits.of_eval (eval_inputByte (fun _ ↦ 0) offset)

/-- The bytes that are extracted from an expression are bytes. -/
theorem hasBits_extractByte {e : SymExpr} {length : SizeT} (hwidth : 8 * length.toNat < 2 ^ 64)
    (he : HasBits e (8 * length.toNat)) (littleEndian : Bool) {i : ℕ} (hi : i < length.toNat) :
    HasBits (extractByte e length littleEndian (BitVec.ofNat 64 i)) 8 := by
  obtain ⟨x, hx⟩ := Value.exists_bv_of_sort ((sort_eval (fun _ ↦ 0) e).trans he)
  rw [Value.bv_eq_ofNat] at hx
  exact HasBits.of_eval (eval_extractByte hwidth hx x.isLt littleEndian hi)

private theorem pagesOfBytes_symWriteMemory {pages : ShadowPages SymExpr} (h : PagesOfBytes pages)
    (addr : UIntPtr) {length : SizeT} (hwidth : 8 * length.toNat < 2 ^ 64) {expr : Option SymExpr}
    (hexpr : NullOr (HasBits · (8 * length.toNat)) expr) (littleEndian : Bool) :
    PagesOfBytes (symWriteMemory addr length expr littleEndian pages) := by
  unfold symWriteMemory
  split
  · exact h
  cases expr with
  | none => exact h.assignShadow addr fun _ _ ↦ nullOr_none
  | some expr =>
    refine h.assignShadow addr fun i hi ↦ nullOr_some.mpr ?_
    exact hasBits_extractByte hwidth (hexpr expr rfl) littleEndian hi

omit [Backend SymExpr] in
/-- A range without bytes may be filled with anything. -/
theorem pagesIn_symMemset_zero {P : SymExpr → Prop} {pages : ShadowPages SymExpr}
    (h : PagesIn P pages) (memory : UIntPtr) (value : Option SymExpr) :
    PagesIn P (symMemset memory value 0 pages) := by
  unfold symMemset
  split
  · exact h
  · exact h.assignShadow memory fun i hi ↦ absurd hi (Nat.not_lt_zero i)

theorem pagesOfBytes_fillPages {s : LibcState SymExpr} (h : PagesOfBytes s.pages) (fd : Int32)
    (buf : UIntPtr) (length : SizeT) : PagesOfBytes (s.fillPages fd buf length) := by
  unfold LibcState.fillPages
  split
  · exact h.assignShadow buf fun i _ ↦ nullOr_some.mpr (hasBits_symGetInputByte _)
  · exact h.symMemset buf nullOr_none length

/-! ## Widths -/

/-- The widths of the parameters of a library function. -/
def LibcCall.paramBits : LibcCall → List ℕ
  | .malloc _ | .rewind _ | .getc _ _ | .fgetc _ _ => [64]
  | .calloc _ _ | .fopen _ _ | .fopen64 _ _ => [64, 64]
  | .mmap64 _ => [64, 64, 32, 32, 32, 64]
  | .openFile _ _ => [64, 32, 32]
  | .read _ _ _ _ => [32, 64, 64]
  | .lseek64 _ _ _ => [32, 64, 32]
  | .fread _ _ _ _ _ => [64, 64, 64, 64]
  | .fgets _ _ _ _ => [64, 32, 64]
  | .fseek _ _ _ _ | .fseeko _ _ _ _ | .fseeko64 _ _ _ _ => [64, 64, 32]
  | .ungetc _ _ => [32, 64]
  | .memcpy _ _ _ _ | .memmove _ _ _ _ | .strncpy _ _ _ _ _ | .memcmp _ _ _ _ _ => [64, 64, 64]
  | .memset _ _ => [64, 32, 64]
  | .strchr _ _ _ _ => [64, 32]
  | .ntohl => [32]

/-- The expressions of parameters are null or have the widths of the parameters. -/
def LibcCall.HasWidths (params : UInt8 → Option SymExpr) (call : LibcCall) : Prop :=
  ∀ index bits, call.paramBits[index]? = some bits →
    NullOr (HasBits · bits) (params (UInt8.ofNat index))

/-- The expressions that come with an event have the widths of what they stand for. -/
def MemoryEvent.HasWidths : MemoryEvent SymExpr → Prop
  | .shadow (.writeMemory _ length expr _) =>
    8 * length.toNat < 2 ^ 64 ∧ NullOr (HasBits · (8 * length.toNat)) expr
  | .shadow (.memset _ value _) => NullOr (HasBits · 8) value
  | .shadow _ => True
  | .libc params call => call.HasWidths params
  | .calloc params nmemb size _ => (LibcCall.calloc nmemb size).HasWidths params
  | .mmap64 params len _ => (LibcCall.mmap64 len).HasWidths params

/-- The library function `memset` is not called with a symbolic value for a range that has bytes. -/
def MemoryEvent.KeepsBytes : MemoryEvent SymExpr → Prop
  | .libc params (.memset _ n) => n = 0 ∨ params 1 = none
  | _ => True

namespace ShadowBytes

/-- One event. The answer is shadow memory afterwards and the entries that have been looked at. -/
def step (cfg : Config) (s : LibcState SymExpr) (event : MemoryEvent SymExpr) :
    LibcState SymExpr × ShadowPages SymExpr × List (Option SymExpr) :=
  (event.exec cfg s, (event.exec cfg s).pages, event.entriesOf s)

/-- What should hold of an answer. -/
structure HoldsBytes (answer : ShadowPages SymExpr × List (Option SymExpr)) : Prop where
  entries : ∀ e, InPages answer.1 e → HasBits e 8
  /-- no assertion fails -/
  asserted : ∀ v ∈ answer.2, ∀ e, v = some e → HasBits e 8
  /-- whatever is read next has the right width -/
  reads : ∀ mem addr (length : SizeT) littleEndian e,
    symReadMemory mem answer.1 addr length littleEndian = some e → HasBits e (8 * length.toNat)

private theorem hasBits_of_read {pages : ShadowPages SymExpr} (h : PagesOfBytes pages)
    {mem : UIntPtr → BitVec 8} {addr : UIntPtr} {length : SizeT} {littleEndian : Bool} {e : SymExpr}
    (hread : symReadMemory mem pages addr length littleEndian = some e) :
    HasBits e (8 * length.toNat) := by
  rcases Nat.eq_zero_or_pos length.toNat with hzero | hlen
  · -- nothing is read from an empty range
    rw [symReadMemory_eq, hzero, List.range_zero, List.foldl_nil, ite_self] at hread
    cases hread
  · exact hasBits_symReadMemory hlen (fun i _ ↦ h.nullOr_shadowAt _) hread

/-- Two of the three parts follow from the first. -/
theorem holdsBytes_iff_pages {cfg : Config} {s : LibcState SymExpr} (h : PagesOfBytes s.pages)
    (event : MemoryEvent SymExpr) :
    HoldsBytes (step cfg s event).2 ↔ PagesOfBytes (event.exec cfg s).pages := by
  constructor
  · intro hanswer
    exact pagesIn_iff.mpr hanswer.entries
  · intro hpages
    exact ⟨pagesIn_iff.mp hpages, nullOr_entriesOf h event, fun _ _ _ _ _ ↦ hasBits_of_read hpages⟩

/-- `memset` stores what is in the slot for its second parameter. -/
theorem pagesOfBytes_memset_iff {s : LibcState SymExpr} (h : PagesOfBytes s.pages)
    (memory : UIntPtr) (n : SizeT) (hparam : NullOr (HasBits · 32) (s.param 1)) :
    PagesOfBytes (symMemset memory (s.param 1) n s.pages) ↔ n = 0 ∨ s.param 1 = none := by
  constructor
  · intro hpages
    by_contra! hne
    obtain ⟨hn, hvalue⟩ := hne
    obtain ⟨e, he⟩ := Option.ne_none_iff_exists'.mp hvalue
    have hpos : 0 < n.toNat := by
      rw [Nat.pos_iff_ne_zero]
      exact fun hzero ↦ hn (BitVec.eq_of_toNat_eq hzero)
    have hstored : shadowAt (symMemset memory (s.param 1) n s.pages) memory = some e := by
      unfold symMemset
      rw [he, Option.isNone_some, Bool.false_and, if_neg Bool.false_ne_true, shadowAt_assignShadow]
      rw [rangeUpdate_of_lt (by rwa [sub_self])]
    have hbyte : HasBits e 8 := hpages.nullOr_shadowAt memory e hstored
    have hint : HasBits e 32 := hparam e he
    rw [HasBits] at hbyte hint
    rw [hbyte] at hint
    exact absurd (Srt.bitVec.inj hint) (by decide)
  · rintro (rfl | hvalue)
    · exact pagesIn_symMemset_zero h memory _
    · rw [hvalue]
      exact h.symMemset memory nullOr_none n

private theorem pagesOfBytes_pagesAfter_iff {s : LibcState SymExpr} (h : PagesOfBytes s.pages)
    {call : LibcCall} (hwidths : call.HasWidths s.slots.functionArguments) :
    PagesOfBytes (s.pagesAfter call) ↔
      MemoryEvent.KeepsBytes (.libc s.slots.functionArguments call) := by
  cases call with
  | memset memory n => exact pagesOfBytes_memset_iff h memory n (hwidths 1 32 rfl)
  | read fildes buf nbyte result =>
    cases result with
    | none => exact iff_of_true h trivial
    | some result => exact iff_of_true (pagesOfBytes_fillPages h fildes buf result) trivial
  | fread fd ptr size nmemb result =>
    exact iff_of_true (pagesOfBytes_fillPages h fd ptr (result * size)) trivial
  | fgets fd str n mem =>
    exact iff_of_true (pagesOfBytes_fillPages h fd str (strlen mem str)) trivial
  | memcpy leftToRight dest src n =>
    exact iff_of_true (h.symMemcpy leftToRight dest src n) trivial
  | memmove leftToRight dest src n =>
    exact iff_of_true (h.symMemmove leftToRight dest src n) trivial
  | strncpy leftToRight mem dest src n =>
    exact iff_of_true (pagesIn_strncpyPages h leftToRight dest src n _) trivial
  | _ => exact iff_of_true h trivial

private theorem pagesOfBytes_shadowCall {pages : ShadowPages SymExpr} (h : PagesOfBytes pages)
    {call : ShadowCall SymExpr} (hwidths : (MemoryEvent.shadow call).HasWidths) :
    PagesOfBytes (call.exec pages).1 := by
  cases call with
  | writeMemory addr length expr littleEndian =>
    exact pagesOfBytes_symWriteMemory h addr hwidths.1 hwidths.2 littleEndian
  | memset memory value length => exact h.symMemset memory hwidths length
  | memmove leftToRight dest src length => exact h.symMemmove leftToRight dest src length
  | memcpy leftToRight dest src length => exact h.symMemcpy leftToRight dest src length
  | readMemory mem addr length littleEndian => exact h
  | isConcrete addr length => exact h

private theorem pagesOfBytes_exec_iff {cfg : Config} {s : LibcState SymExpr}
    (h : PagesOfBytes s.pages) {event : MemoryEvent SymExpr} (hwidths : event.HasWidths) :
    PagesOfBytes (event.exec cfg s).pages ↔ event.KeepsBytes := by
  cases event with
  | shadow call => exact iff_of_true (pagesOfBytes_shadowCall h hwidths) trivial
  | libc params call =>
    rw [MemoryEvent.exec, LibcState.pages_call]
    exact pagesOfBytes_pagesAfter_iff (s := s.setParameters params) h hwidths
  | calloc params nmemb size block =>
    refine iff_of_true ?_ trivial
    rw [MemoryEvent.exec, LibcState.callocSymbolized]
    simpa [LibcState.setParameters] using h
  | mmap64 params len block =>
    refine iff_of_true ?_ trivial
    rw [MemoryEvent.exec, LibcState.mmap64Symbolized]
    simpa [LibcState.setParameters] using h

private theorem pagesOfBytes_start (cfg : Config) :
    PagesOfBytes (LibcState.init.initLibcWrappers cfg : LibcState SymExpr).pages := by
  rw [LibcState.pages_start]
  exact fun p page hp ↦ nomatch hp

/-- In every history, shadow memory holds bytes all the time exactly if the library function
`memset` is never called with a symbolic value. -/
theorem holdsBytes_iff (cfg : Config) (events : List (MemoryEvent SymExpr))
    (hwidths : ∀ event ∈ events, event.HasWidths) :
    (∀ answer ∈ (Machine.run (step cfg) (LibcState.init.initLibcWrappers cfg) events).2,
        HoldsBytes answer) ↔
      ∀ event ∈ events, event.KeepsBytes := by
  rw [← Machine.along_iff_forall (step cfg) (LibcState.init.initLibcWrappers cfg)]
  exact Machine.run_answers_iff (I := fun s ↦ PagesOfBytes s.pages)
    (fun s event h hevent ↦
      (holdsBytes_iff_pages h event).trans (pagesOfBytes_exec_iff h hevent))
    (fun s event h _ hanswer ↦ (holdsBytes_iff_pages h event).mp hanswer)
    (pagesOfBytes_start cfg) hwidths

/-- The parameters of a call whose second parameter alone is symbolic. -/
def secondParameter (e : SymExpr) : UInt8 → Option SymExpr := fun index ↦
  if index = 1 then some e else none

omit [Backend SymExpr] in
theorem secondParameter_ne {index : ℕ} (hlt : index < 256) (hne : index ≠ 1) (e : SymExpr) :
    secondParameter e (UInt8.ofNat index) = none := by
  rw [secondParameter, if_neg]
  intro h
  have hnat := congrArg UInt8.toNat h
  rw [UInt8.toNat_ofNat', Nat.mod_eq_of_lt hlt] at hnat
  exact hne hnat

/-- A program that reads two bytes, fills others with zeros and stores a byte of the input. -/
def readAndFill : List (MemoryEvent Z3Ast) :=
  [.libc (fun _ ↦ none) (.read 0 4096 2 (some 2)), .libc (fun _ ↦ none) (.memset 8192 16),
    .shadow (.writeMemory 8192 1 (some (.var 0)) true)]

/-- The equivalence for that program. -/
theorem holdsBytes_iff_readAndFill :
    (∀ answer ∈ (Machine.run (step standardInput) (LibcState.init.initLibcWrappers standardInput)
        readAndFill).2, HoldsBytes answer) ↔
      ∀ event ∈ readAndFill, event.KeepsBytes :=
  holdsBytes_iff standardInput readAndFill (by
    simp only [readAndFill, List.forall_mem_cons]
    refine ⟨fun _ _ _ ↦ nullOr_none, fun _ _ _ ↦ nullOr_none, ⟨by decide, ?_⟩,
      List.forall_mem_nil _⟩
    exact nullOr_some.mpr rfl)

/-- The program calls `memset` with a character of the input, as an `int`. -/
def fillWithInput : MemoryEvent Z3Ast :=
  .libc (secondParameter (symBuildZExt (.var 0) 24)) (.memset 4096 1)

private theorem hasWidths_fillWithInput : fillWithInput.HasWidths := by
  rintro index bits hbits
  have hlt : index < 3 := (List.getElem?_eq_some_iff.mp hbits).1
  by_cases h : index = 1
  · subst h
    obtain rfl : 32 = bits := Option.some.inj hbits
    exact nullOr_some.mpr rfl
  · rw [secondParameter_ne (by omega) h]
    exact nullOr_none

/-- The character has the width of the parameter, and shadow memory then holds all its bits. -/
theorem not_holdsBytes :
    (∀ event ∈ [fillWithInput], event.HasWidths) ∧
      ¬ ∀ answer ∈ (Machine.run (step standardInput)
          (LibcState.init.initLibcWrappers standardInput) [fillWithInput]).2,
        HoldsBytes answer := by
  constructor
  · rw [List.forall_mem_singleton]
    exact hasWidths_fillWithInput
  · intro h
    have hstart : PagesOfBytes
        (LibcState.init.initLibcWrappers standardInput : LibcState Z3Ast).pages :=
      pagesOfBytes_start standardInput
    have hpages := (holdsBytes_iff_pages hstart fillWithInput).mp (h _ List.mem_cons_self)
    have hkeeps := (pagesOfBytes_exec_iff hstart hasWidths_fillWithInput).mp hpages
    exact hkeeps.elim (by decide) (by decide)

end ShadowBytes

end Adacc
