import Adacc.Runtime.FlatShadow
import Adacc.Runtime.LibcWrappers

/-!
# What programs do to memory

A program changes shadow memory through the calls that instrumentation inserts and through the
wrappers for library functions. `LibcCall.flat` says what a wrapper should do to a flat map, and
`shadowAt_call` that it does, if the program calls the library function as it may: with ranges that
are objects, and where copying is concerned, objects that do not overlap.

An `Event` is one or the other. A call of a wrapper comes with the expressions that the program has
put into the slots for its parameters, and a call of `calloc` or `mmap64` that succeeds with the
address that the library has chosen.
-/

namespace Adacc

open ModularRange

/-! ## Objects -/

/-- The range and the address after it lie in the address space, as for every object in C. -/
def IsObject (addr : UIntPtr) (length : SizeT) : Prop := addr.toNat + length.toNat < 2 ^ 64

instance (addr : UIntPtr) (length : SizeT) : Decidable (IsObject addr length) :=
  inferInstanceAs (Decidable (_ < _))

variable {SymExpr : Type}

theorem IsObject.inAddressSpace {addr : UIntPtr} {length : SizeT} (h : IsObject addr length) :
    InAddressSpace addr length := h.le

theorem IsObject.fastPathSound {addr : UIntPtr} {length : SizeT} (h : IsObject addr length)
    (pages : ShadowPages SymExpr) : FastPathSound pages addr length := by
  have hoffset : (pageOffset addr).toNat ≤ addr.toNat := by
    rw [toNat_pageOffset]
    exact Nat.mod_le _ _
  exact FastPathSound.of_lt pages ((Nat.add_le_add_right hoffset _).trans_lt h)

theorem IsObject.fits {addr : UIntPtr} {length : SizeT} (h : IsObject addr length)
    (pages : ShadowPages SymExpr) : Fits pages addr length :=
  ⟨h.inAddressSpace, h.fastPathSound pages⟩

theorem ShadowCall.Admissible.mono {fits fits' : UIntPtr → SizeT → Prop}
    {call : ShadowCall SymExpr} (h : call.Admissible fits)
    (himp : ∀ addr length, fits addr length → fits' addr length) : call.Admissible fits' := by
  cases call with
  | writeMemory addr length expr littleEndian => exact himp _ _ h
  | memset memory value length => exact himp _ _ h
  | memmove leftToRight dest src length => exact ⟨himp _ _ h.1, himp _ _ h.2⟩
  | memcpy leftToRight dest src length => exact ⟨himp _ _ h.1, himp _ _ h.2.1, h.2.2⟩
  | readMemory mem addr length littleEndian => exact himp _ _ h
  | isConcrete addr length => exact himp _ _ h

/-! ## Wrappers on a flat map -/

/-- The program may call the library function like this. -/
def LibcCall.IsProper : LibcCall → Prop
  | .read _ buf _ (some result) => IsObject buf result
  | .fread _ ptr size _ result => IsObject ptr (result * size)
  | .fgets _ str _ mem => IsObject str (strlen mem str)
  | .memcpy _ dest src n =>
    IsObject dest n ∧ IsObject src n ∧ (dest = src ∨ DisjointRanges dest src n)
  | .memset memory n => IsObject memory n
  | .memmove _ dest src n => IsObject dest n ∧ IsObject src n
  | .strncpy _ mem dest src n =>
    let copied := strlenLoop mem n.toNat src
    IsObject dest n ∧ src.toNat + copied < 2 ^ 64 ∧
      (dest.toNat + n.toNat ≤ src.toNat ∨ src.toNat + copied ≤ dest.toNat)
  | _ => True

section Flat

variable [Backend SymExpr]

open Backend

namespace LibcState

/-! ### The pages after a call -/

/-- What filling a buffer from `fd` does to shadow memory. -/
def fillPages (s : LibcState SymExpr) (fd : Int32) (buf : UIntPtr) (length : SizeT) :
    ShadowPages SymExpr :=
  if fd = s.inputFileDescriptor then
    assignShadow (fun i ↦ some (symGetInputByte (s.inputOffset + i))) buf length s.pages
  else symMemset buf none length s.pages

omit [Backend SymExpr] in
/-- What copying the `copied` bytes of a string into a destination of `n` bytes does to shadow
memory. -/
def strncpyPages (leftToRight : Bool) (dest src : UIntPtr) (n copied : SizeT)
    (pages : ShadowPages SymExpr) : ShadowPages SymExpr :=
  if isConcrete pages src copied && isConcrete pages dest n then pages
  else
    let (destBegin, pages') := WriteShadowIterator.mk' pages dest
    let seen := if leftToRight then pages else pages'
    let copy := stdCopy (ReadShadowIterator.mk' seen src)
      (ReadShadowIterator.mk' seen (src + copied)) destBegin pages'
    if copied < n then assignShadow (fun _ ↦ none) (dest + copied) (n - copied) copy else copy

/-- What the wrappers do to shadow memory, and nothing else about them. -/
def pagesAfter (s : LibcState SymExpr) : LibcCall → ShadowPages SymExpr
  | .read fildes buf _ (some result) => s.fillPages fildes buf result
  | .fread fd ptr size _ result => s.fillPages fd ptr (result * size)
  | .fgets fd str _ mem => s.fillPages fd str (strlen mem str)
  | .memcpy leftToRight dest src n => symMemcpy leftToRight dest src n s.pages
  | .memset memory n => symMemset memory (s.param 1) n s.pages
  | .memmove leftToRight dest src n => symMemmove leftToRight dest src n s.pages
  | .strncpy leftToRight mem dest src n =>
    strncpyPages leftToRight dest src n (BitVec.ofNat 64 (strlenLoop mem n.toNat src)) s.pages
  | _ => s.pages

theorem pages_fillBuffer {s t : LibcState SymExpr}
    (hfd : t.inputFileDescriptor = s.inputFileDescriptor) (hoffset : t.inputOffset = s.inputOffset)
    (hpages : t.pages = s.pages) (fd : Int32) (buf : UIntPtr) (length : SizeT) :
    (t.fillBuffer .qsym fd buf length).pages = s.fillPages fd buf length := by
  unfold fillBuffer fillPages
  rw [stdGenerate_qsym, hfd, hoffset, hpages]
  split
  · rfl
  · unfold symMemset
    rw [Option.isNone_none, Bool.true_and]
    cases isConcrete s.pages buf length
    · rfl
    · exact hpages

omit [Backend SymExpr] in
theorem pages_fopenSymbolized (cfg : Config) (pathname : CString) (result : Option Int32)
    (s : LibcState SymExpr) :
    (s.fopenSymbolized cfg pathname result).pages = s.pages ∧
      (s.fopen64Symbolized cfg pathname result).pages = s.pages := by
  cases result with
  | none => exact ⟨rfl, rfl⟩
  | some fd => exact ⟨pages_rememberInputFile cfg pathname fd _,
      pages_rememberInputFile cfg pathname fd _⟩

omit [Backend SymExpr] in
theorem pages_lseek64Symbolized (s : LibcState SymExpr) (fd whence : Int32)
    (result : Option (BitVec 64)) : (s.lseek64Symbolized fd whence result).pages = s.pages := by
  cases result with
  | none => rfl
  | some result => exact (moves_lseek64Symbolized s fd whence result).pages_eq

omit [Backend SymExpr] in
theorem pages_ungetcSymbolized (s : LibcState SymExpr) (fd : Int32) (result : Bool) :
    (s.ungetcSymbolized fd result).pages = s.pages := by
  cases result
  · exact (samePosition_ungetcSymbolized s fd).pages_eq
  · exact (moves_ungetcSymbolized s fd).pages_eq

private theorem pages_seekStream (s : LibcState SymExpr) (caller : LibcFunction) (fd : Int32)
    (offset : BitVec 64) (result : Bool) (pos : Option (BitVec 64)) :
    (s.seekStream caller fd offset result pos).pages = s.pages := by
  cases result with
  | false => exact (samePosition_seekStream s caller fd offset pos).pages_eq
  | true =>
    cases pos with
    | none =>
      unfold seekStream
      dsimp only
      split_ifs <;> simp
    | some pos => exact (moves_seekStream s caller fd offset pos).pages_eq

private theorem pages_readCharacter (s : LibcState SymExpr) (fd : Int32)
    (result : Option (BitVec 8)) : (s.readCharacter .qsym fd result).pages = s.pages := by
  cases result with
  | none => rfl
  | some c =>
    unfold readCharacter
    dsimp only
    split <;> rfl

private theorem pages_strncpySymbolized (s : LibcState SymExpr) (leftToRight : Bool)
    (mem : UIntPtr → BitVec 8) (dest src : UIntPtr) (n : SizeT) :
    (s.strncpySymbolized leftToRight mem dest src n).pages
      = strncpyPages leftToRight dest src n (BitVec.ofNat 64 (strlenLoop mem n.toNat src))
          s.pages := by
  unfold strncpySymbolized strncpyPages
  simp only [pages_setReturn, pages_tryAlternative]
  split
  · simp
  · split <;> rfl

private theorem pages_strchrSymbolized (s : LibcState SymExpr) (mem : UIntPtr → BitVec 8)
    (str : UIntPtr) (c : BitVec 32) (result : Option UIntPtr) :
    (s.strchrSymbolized mem str c result).pages = s.pages := by
  unfold strchrSymbolized
  dsimp only
  split <;> simp

private theorem pages_memcmpSymbolized (s : LibcState SymExpr) (mem : UIntPtr → BitVec 8)
    (a b : UIntPtr)
    (n : SizeT) (equal : Bool) : (s.memcmpSymbolized mem a b n equal).pages = s.pages := by
  unfold memcmpSymbolized
  dsimp only
  split <;> simp

theorem pages_call (cfg : Config) (s : LibcState SymExpr) (call : LibcCall) :
    (s.call cfg call).pages = s.pagesAfter call := by
  cases call with
  | malloc size => simp [call, mallocSymbolized, pagesAfter]
  | calloc nmemb size => simp [call, callocSymbolized, pagesAfter]
  | mmap64 len => simp [call, mmap64Symbolized, pagesAfter]
  | openFile path result => exact pages_openSymbolized cfg path result s
  | read fildes buf nbyte result =>
    cases result with
    | none => exact (samePosition_readSymbolized .qsym s fildes buf nbyte).pages_eq
    | some result => exact pages_fillBuffer (by simp) (by simp) (by simp) fildes buf result
  | lseek64 fd whence result => exact pages_lseek64Symbolized s fd whence result
  | fopen pathname result => exact (pages_fopenSymbolized cfg pathname result s).1
  | fopen64 pathname result => exact (pages_fopenSymbolized cfg pathname result s).2
  | fread fd ptr size nmemb result =>
    exact pages_fillBuffer (by simp) (by simp) (by simp) fd ptr (result * size)
  | fgets fd str n mem =>
    exact pages_fillBuffer (by simp) (by simp) (by simp) fd str (strlen mem str)
  | rewind fd => exact (moves_rewindSymbolized s fd).pages_eq
  | fseek fd offset result pos | fseeko fd offset result pos | fseeko64 fd offset result pos =>
    exact pages_seekStream s _ fd offset result pos
  | getc fd result | fgetc fd result => exact pages_readCharacter s fd result
  | ungetc fd result => exact pages_ungetcSymbolized s fd result
  | memcpy leftToRight dest src n => simp [call, memcpySymbolized, pagesAfter]
  | memset memory n => simp [call, memsetSymbolized, pagesAfter]
  | memmove leftToRight dest src n => simp [call, memmoveSymbolized, pagesAfter]
  | strncpy leftToRight mem dest src n => exact pages_strncpySymbolized s leftToRight mem dest src n
  | strchr mem str c result => exact pages_strchrSymbolized s mem str c result
  | memcmp mem a b n equal => exact pages_memcmpSymbolized s mem a b n equal
  | ntohl => rfl

/-! ### The effect on a flat map -/

/-- A buffer that has been filled from `fd`. -/
def flatFill (s : LibcState SymExpr) (fd : Int32) (buf : UIntPtr) (length : SizeT)
    (m : FlatShadow SymExpr) : FlatShadow SymExpr :=
  rangeUpdate m buf length.toNat fun i ↦
    if fd = s.inputFileDescriptor then some (symGetInputByte (s.inputOffset + BitVec.ofNat 64 i))
    else none

/-- What a wrapper should do to a flat map. -/
def flatCall (s : LibcState SymExpr) (m : FlatShadow SymExpr) : LibcCall → FlatShadow SymExpr
  | .read fildes buf _ (some result) => s.flatFill fildes buf result m
  | .fread fd ptr size _ result => s.flatFill fd ptr (result * size) m
  | .fgets fd str _ mem => s.flatFill fd str (strlen mem str) m
  | .memcpy _ dest src n => m.copy dest src n
  | .memset memory n => rangeUpdate m memory n.toNat fun _ ↦ s.param 1
  | .memmove _ dest src n => m.copy dest src n
  | .strncpy _ mem dest src n =>
    rangeUpdate m dest n.toNat fun i ↦
      if i < strlenLoop mem n.toNat src then m (src + BitVec.ofNat 64 i) else none
  | _ => m

theorem shadowAt_fillPages (s : LibcState SymExpr) (fd : Int32) {buf : UIntPtr} {length : SizeT}
    (hbuf : IsObject buf length) :
    shadowAt (s.fillPages fd buf length) = s.flatFill fd buf length (shadowAt s.pages) := by
  unfold fillPages flatFill
  split
  · exact shadowAt_assignShadow _ buf length s.pages
  · exact shadowAt_symMemset none (hbuf.fastPathSound _)

omit [Backend SymExpr] in
/-- The string is copied, and the rest of the destination becomes concrete. -/
theorem shadowAt_strncpyPages (leftToRight : Bool) {dest src : UIntPtr} {n : SizeT} {k : ℕ}
    (hk : k ≤ n.toNat) (hdest : IsObject dest n) (hsrc : src.toNat + k < 2 ^ 64)
    (hranges : dest.toNat + n.toNat ≤ src.toNat ∨ src.toNat + k ≤ dest.toNat)
    (pages : ShadowPages SymExpr) :
    shadowAt (strncpyPages leftToRight dest src n (BitVec.ofNat 64 k) pages)
      = rangeUpdate (shadowAt pages) dest n.toNat fun i ↦
          if i < k then shadowAt pages (src + BitVec.ofNat 64 i) else none := by
  have hn := n.isLt
  have hcopied : (BitVec.ofNat 64 k).toNat = k := by
    rw [BitVec.toNat_ofNat, Nat.mod_eq_of_lt (by omega)]
  have hsrcObject : IsObject src (BitVec.ofNat 64 k) := by
    rw [IsObject, hcopied]
    exact hsrc
  have hdestObject : IsObject dest (BitVec.ofNat 64 k) := by
    rw [IsObject] at hdest ⊢
    omega
  unfold strncpyPages
  split
  · next h =>
    -- both ranges are concrete, and nothing changes
    rw [Bool.and_eq_true, isConcrete_iff (hsrcObject.fastPathSound _),
      isConcrete_iff (hdest.fastPathSound _), hcopied] at h
    refine (rangeUpdate_self fun i hi ↦ ?_).symm
    rw [h.2 i hi]
    split
    · next hik => exact h.1 i hik
    · rfl
  · have hdisjoint : DisjointRanges dest src (BitVec.ofNat 64 k) := by
      rw [DisjointRanges]
      omega
    have hcopy := shadowAt_copy pages leftToRight (safe_of_disjoint hdestObject.inAddressSpace
      hsrcObject.inAddressSpace (.inr hdisjoint))
    rw [hcopied] at hcopy
    dsimp only
    split
    · next hlt =>
      -- the rest of the destination is filled after the copy
      have hrest : (n - BitVec.ofNat 64 k).toNat = n.toNat - k := by
        rw [BitVec.toNat_sub, hcopied]
        omega
      rw [shadowAt_assignShadow, hcopy, hrest, rangeUpdate_append _ _ _ _ hk hn]
    · next hge =>
      have hk : k = n.toNat := by
        rw [BitVec.not_lt, BitVec.le_def, hcopied] at hge
        omega
      rw [hcopy, hk, rangeUpdate_ite_lt]

/-- The wrappers do to shadow memory what they should. -/
theorem shadowAt_call (cfg : Config) (s : LibcState SymExpr) {call : LibcCall}
    (h : call.IsProper) :
    shadowAt (s.call cfg call).pages = s.flatCall (shadowAt s.pages) call := by
  rw [pages_call]
  cases call with
  | read fildes buf nbyte result =>
    cases result with
    | none => rfl
    | some result => exact shadowAt_fillPages s fildes h
  | fread fd ptr size nmemb result => exact shadowAt_fillPages s fd h
  | fgets fd str n mem => exact shadowAt_fillPages s fd h
  | memcpy leftToRight dest src n =>
    obtain ⟨hdest, hsrc, hranges⟩ := h
    exact shadowAt_symMemcpy leftToRight (hsrc.fastPathSound _) (hdest.fastPathSound _)
      (safe_of_disjoint hdest.inAddressSpace hsrc.inAddressSpace hranges)
  | memset memory n => exact shadowAt_symMemset _ (IsObject.fastPathSound h _)
  | memmove leftToRight dest src n =>
    obtain ⟨hdest, hsrc⟩ := h
    exact shadowAt_symMemmove leftToRight (hsrc.fastPathSound _) (hdest.fastPathSound _)
      hsrc.inAddressSpace hdest.inAddressSpace
  | strncpy leftToRight mem dest src n =>
    obtain ⟨hdest, hsrc, hranges⟩ := h
    exact shadowAt_strncpyPages leftToRight (strlenLoop_le mem n.toNat src) hdest hsrc hranges _
  | _ => rfl

omit [Backend SymExpr] in
/-- When the program starts, there is no shadow memory. -/
theorem pages_start (cfg : Config) :
    (LibcState.init.initLibcWrappers cfg : LibcState SymExpr).pages = ∅ := by
  unfold initLibcWrappers
  split_ifs <;> rfl

/-- The program has put the expressions of parameters into their slots. -/
def setParameters (params : UInt8 → Option SymExpr) (s : LibcState SymExpr) : LibcState SymExpr :=
  { s with slots := { s.slots with functionArguments := params } }

end LibcState

end Flat

/-! ## Events -/

/-- The input is what is read from the standard input. -/
def standardInput : Config := ⟨true, false, []⟩

/-- What a program does to memory. -/
inductive MemoryEvent (SymExpr : Type)
  | shadow (call : ShadowCall SymExpr)
  | libc (params : UInt8 → Option SymExpr) (call : LibcCall)
  /-- a call of `calloc` that yields `block` -/
  | calloc (params : UInt8 → Option SymExpr) (nmemb size : SizeT) (block : UIntPtr)
  /-- a call of `mmap64` for an anonymous mapping that yields `block` -/
  | mmap64 (params : UInt8 → Option SymExpr) (len : SizeT) (block : UIntPtr)

namespace MemoryEvent

/-- The program may do this. -/
def IsProper : MemoryEvent SymExpr → Prop
  | .shadow call => call.Admissible IsObject
  | .libc _ call => call.IsProper
  | .calloc _ nmemb size block =>
    nmemb.toNat * size.toNat < 2 ^ 64 ∧ IsObject block (nmemb * size)
  | .mmap64 _ len block => IsObject block len

/-- The block that the library has handed out. -/
def block : MemoryEvent SymExpr → Option (UIntPtr × SizeT)
  | .shadow _ | .libc _ _ => none
  | .calloc _ nmemb size block => some (block, nmemb * size)
  | .mmap64 _ len block => some (block, len)

variable [Backend SymExpr]

/-- What the runtime library does. -/
def exec (cfg : Config) (s : LibcState SymExpr) : MemoryEvent SymExpr → LibcState SymExpr
  | .shadow call => { s with pages := (call.exec s.pages).1 }
  | .libc params call => (s.setParameters params).call cfg call
  | .calloc params nmemb size _ => (s.setParameters params).callocSymbolized nmemb size
  | .mmap64 params len _ => (s.setParameters params).mmap64Symbolized len

/-- What has been written to a flat map. -/
def flat (s : LibcState SymExpr) (m : FlatShadow SymExpr) : MemoryEvent SymExpr → FlatShadow SymExpr
  | .shadow call => (FlatShadow.exec m call).1
  | .libc params call => (s.setParameters params).flatCall m call
  | .calloc _ _ _ _ | .mmap64 _ _ _ => m

theorem shadowAt_exec (cfg : Config) (s : LibcState SymExpr) {event : MemoryEvent SymExpr}
    (h : event.IsProper) :
    shadowAt (event.exec cfg s).pages = event.flat s (shadowAt s.pages) := by
  cases event with
  | shadow call =>
    have hfits := h.mono fun _ _ hobject ↦ hobject.fits s.pages
    exact (congrArg Prod.fst (exec_refines s.pages call hfits)).symm
  | libc params call => exact LibcState.shadowAt_call cfg (s.setParameters params) h
  | calloc params nmemb size block =>
    exact congrArg shadowAt (by simp [exec, LibcState.callocSymbolized, LibcState.setParameters])
  | mmap64 params len block =>
    exact congrArg shadowAt (by simp [exec, LibcState.mmap64Symbolized, LibcState.setParameters])

end MemoryEvent

end Adacc
