import Adacc.Runtime.LibcWrappers

/-!
# Offsets of 32 bits

`lseek_symbolized` stands in for an `lseek` whose offsets and results have 32 bits. Offsets are
signed numbers, but the wrapper takes and returns unsigned ones. It hands its offset to
`lseek64_symbolized` with zeros in front, and tells from the result alone whether there has been an
overflow, although the result may also say that the call has failed.

`likeLseek_iff` says when this is right all the same: when the offset is not negative and the call
does not fail.

The system is Linux. Seeking leaves the number of the last error alone if it succeeds.
-/

namespace Adacc

/-- The numbers of errors. -/
inductive Errno
  | ebadf | einval | enxio | eoverflow | espipe
  deriving DecidableEq

/-! ## The system -/

/-- A file with a position. -/
structure SeekableFile where
  position : ℕ
  size : ℕ
  /-- The largest position that the file system allows. -/
  limit : ℕ
  position_le : position ≤ limit
  size_le : size ≤ limit
  limit_lt : limit < 2 ^ 63

namespace SeekableFile

variable (f : SeekableFile)

/-- The position that an offset means. Files have no holes. -/
def target (offset : ℤ) (whence : Int32) : Except Errno ℤ :=
  -- `SEEK_SET`, `SEEK_CUR` and `SEEK_END`
  if whence = 0 then .ok offset
  else if whence = 1 then .ok (f.position + offset)
  else if whence = 2 then .ok (f.size + offset)
  -- `SEEK_DATA` and `SEEK_HOLE`
  else if whence = 3 then if 0 ≤ offset ∧ offset < f.size then .ok offset else .error .enxio
  else if whence = 4 then if 0 ≤ offset ∧ offset < f.size then .ok f.size else .error .enxio
  else .error .einval

/-- The position after seeking. -/
def seek (offset : ℤ) (whence : Int32) : Except Errno ℕ :=
  match f.target offset whence with
  | .error errno => .error errno
  | .ok target => if 0 ≤ target ∧ target ≤ f.limit then .ok target.toNat else .error .einval

def moveTo (position : ℕ) (h : position ≤ f.limit) : SeekableFile :=
  { f with position, position_le := h }

end SeekableFile

/-- What a number refers to. -/
inductive Descriptor
  | closed
  /-- A pipe, a socket or a terminal. -/
  | pipe
  | file (f : SeekableFile)

namespace Descriptor

/-- The position after seeking. -/
def seek (offset : ℤ) (whence : Int32) : Descriptor → Except Errno ℕ
  | .closed => .error .ebadf
  | .pipe => .error .espipe
  | .file f => f.seek offset whence

/-- The position, for descriptors that have one. -/
def position? : Descriptor → Option ℕ
  | .closed | .pipe => none
  | .file f => some f.position

/-- The descriptor after seeking. -/
def moveTo (position : ℕ) : Descriptor → Descriptor
  | .closed => .closed
  | .pipe => .pipe
  | .file f => if h : position ≤ f.limit then .file (f.moveTo position h) else .file f

end Descriptor

/-! ## The wrappers -/

/-- A descriptor and the runtime library. -/
structure SeekState (SymExpr : Type) where
  descriptor : Descriptor
  libc : LibcState SymExpr

/-- What a function of the `lseek` family returns, what it stores into `errno`, and the state
afterwards. -/
structure SeekResult (SymExpr : Type) (w : ℕ) where
  value : BitVec w
  errno : Option Errno
  state : SeekState SymExpr

namespace SeekState

variable {SymExpr : Type} (s : SeekState SymExpr) (fd whence : Int32)

/-- `lseek64_symbolized` on the descriptor, which has the number `fd`. -/
def lseek64Symbolized (offset : BitVec 64) : SeekResult SymExpr 64 :=
  match s.descriptor.seek offset.toInt whence with
  | .error errno =>
    ⟨-1, some errno, { s with libc := s.libc.lseek64Symbolized fd whence none }⟩
  | .ok position =>
    let result := BitVec.ofNat 64 position
    ⟨result, none,
      ⟨s.descriptor.moveTo position, s.libc.lseek64Symbolized fd whence (some result)⟩⟩

/-- `lseek_symbolized` -/
def lseekSymbolized (offset : BitVec 32) : SeekResult SymExpr 32 :=
  let ⟨result, errno, s'⟩ := s.lseek64Symbolized fd whence (offset.setWidth 64)
  let result32 := result.setWidth 32
  if result = result32.setWidth 64 then ⟨result32, errno, s'⟩ else ⟨-1, some .eoverflow, s'⟩

/-- What `lseek` does on a system where offsets have 32 bits. -/
def lseek (offset : BitVec 32) : SeekResult SymExpr 32 :=
  let ⟨result, errno, s'⟩ := s.lseek64Symbolized fd whence (offset.signExtend 64)
  match errno with
  | some errno => ⟨-1, some errno, s'⟩
  | none =>
    if result.toNat < 2 ^ 32 then ⟨result.setWidth 32, none, s'⟩ else ⟨-1, some .eoverflow, s'⟩

end SeekState

/-- What the wrapper should do: move the descriptor like `lseek`, return the same, and report the
error if the call fails. -/
structure LikeLseek {SymExpr : Type} (s : SeekState SymExpr) (fd whence : Int32)
    (offset : BitVec 32) : Prop where
  position_eq : (s.lseekSymbolized fd whence offset).state.descriptor.position?
    = (s.lseek fd whence offset).state.descriptor.position?
  value_eq : (s.lseekSymbolized fd whence offset).value = (s.lseek fd whence offset).value
  errno_eq : (s.lseekSymbolized fd whence offset).errno = (s.lseek fd whence offset).errno
  failure : ∀ errno, (s.lseek64Symbolized fd whence (offset.setWidth 64)).errno = some errno →
    (s.lseekSymbolized fd whence offset).value = -1 ∧
      (s.lseekSymbolized fd whence offset).errno = some errno ∧
      (s.lseekSymbolized fd whence offset).state.descriptor.position? = s.descriptor.position? ∧
      (s.lseekSymbolized fd whence offset).state.libc.inputOffset = s.libc.inputOffset

/-! ## Facts about seeking -/

theorem SeekableFile.seek_eq_ok_iff {f : SeekableFile} {offset : ℤ} {whence : Int32} {p : ℕ} :
    f.seek offset whence = .ok p ↔ f.target offset whence = .ok (p : ℤ) ∧ p ≤ f.limit := by
  unfold seek
  cases f.target offset whence with
  | error errno => simp
  | ok target =>
    simp only [Except.ok.injEq]
    split
    · next h =>
      rw [Except.ok.injEq]
      omega
    · next h =>
      refine iff_of_false (fun h' ↦ nomatch h') fun h' ↦ h ?_
      omega

/-- A position that a negative offset leads to is far before the one that the offset leads to as an
unsigned number. -/
theorem SeekableFile.seek_eq_add {f : SeekableFile} {offset : ℤ} (hneg : offset < 0)
    {whence : Int32} {p p' : ℕ} (hp : f.seek offset whence = .ok p)
    (hp' : f.seek (offset + 2 ^ 32) whence = .ok p') : p' = p + 2 ^ 32 := by
  obtain ⟨hp, -⟩ := seek_eq_ok_iff.mp hp
  obtain ⟨hp', -⟩ := seek_eq_ok_iff.mp hp'
  unfold target at hp hp'
  split_ifs at hp hp' <;> simp only [Except.ok.injEq] at hp hp' <;> omega

/-- Seeking fails for other reasons than an overflow. -/
theorem Descriptor.seek_ne_eoverflow (d : Descriptor) (offset : ℤ) (whence : Int32) :
    d.seek offset whence ≠ .error .eoverflow := by
  intro h
  cases d with
  | closed | pipe => cases h
  | file f =>
    dsimp only [Descriptor.seek, SeekableFile.seek] at h
    split at h
    · next errno htarget =>
      unfold SeekableFile.target at htarget
      obtain rfl := Except.error.inj h
      split_ifs at htarget <;> cases htarget
    · split at h <;> cases h

/-- Seeking leads to a position, which the descriptor then has. -/
theorem Descriptor.seek_eq_ok {d : Descriptor} {offset : ℤ} {whence : Int32} {p : ℕ}
    (h : d.seek offset whence = .ok p) : p < 2 ^ 63 ∧ (d.moveTo p).position? = some p := by
  cases d with
  | closed | pipe => cases h
  | file f =>
    have hle := (SeekableFile.seek_eq_ok_iff.mp h).2
    refine ⟨hle.trans_lt f.limit_lt, ?_⟩
    rw [Descriptor.moveTo, dif_pos hle]
    rfl

theorem Descriptor.seek_eq_add {d : Descriptor} {offset : ℤ} (hneg : offset < 0) {whence : Int32}
    {p p' : ℕ} (hp : d.seek offset whence = .ok p)
    (hp' : d.seek (offset + 2 ^ 32) whence = .ok p') : p' = p + 2 ^ 32 := by
  cases d with
  | closed | pipe => cases hp
  | file f => exact SeekableFile.seek_eq_add hneg hp hp'

/-- Zeros in front of a number make it an unsigned one. -/
theorem toInt_setWidth_offset (offset : BitVec 32) :
    (offset.setWidth 64).toInt = offset.toNat := by
  rw [BitVec.toInt_setWidth, Int.bmod_eq_of_le] <;> omega

private theorem toNat_of_msb {offset : BitVec 32} (h : offset.msb = true) :
    (offset.toNat : ℤ) = offset.toInt + 2 ^ 32 := by
  rw [BitVec.toInt_eq_msb_cond, if_pos h]
  omega

/-- A position has to fit into 32 bits in order to survive being cut off. -/
theorem ofNat_eq_setWidth_iff {p : ℕ} (hp : p < 2 ^ 63) :
    BitVec.ofNat 64 p = ((BitVec.ofNat 64 p).setWidth 32).setWidth 64 ↔ p < 2 ^ 32 := by
  rw [← BitVec.toNat_inj, BitVec.toNat_setWidth, BitVec.toNat_setWidth, BitVec.toNat_ofNat]
  omega

/-! ## What the wrapper does -/

section Wrapper

variable {SymExpr : Type} {s : SeekState SymExpr} {fd whence : Int32}

theorem lseek64Symbolized_of_ok {offset : BitVec 64} {p : ℕ}
    (h : s.descriptor.seek offset.toInt whence = .ok p) :
    s.lseek64Symbolized fd whence offset
      = ⟨BitVec.ofNat 64 p, none,
          ⟨s.descriptor.moveTo p,
            s.libc.lseek64Symbolized fd whence (some (BitVec.ofNat 64 p))⟩⟩ := by
  rw [SeekState.lseek64Symbolized, h]

theorem lseek64Symbolized_of_error {offset : BitVec 64} {errno : Errno}
    (h : s.descriptor.seek offset.toInt whence = .error errno) :
    s.lseek64Symbolized fd whence offset
      = ⟨-1, some errno,
          { s with libc := s.libc.lseek64Symbolized fd whence none }⟩ := by
  rw [SeekState.lseek64Symbolized, h]

/-- A failure is taken for an overflow. -/
theorem errno_lseekSymbolized_of_error {offset : BitVec 32} {errno : Errno}
    (h : s.descriptor.seek offset.toNat whence = .error errno) :
    (s.lseekSymbolized fd whence offset).errno = some .eoverflow := by
  rw [← toInt_setWidth_offset] at h
  rw [SeekState.lseekSymbolized, lseek64Symbolized_of_error h]
  rfl

/-- Where the call succeeds, the overflow check is right. -/
theorem lseekSymbolized_of_ok {offset : BitVec 32} {p : ℕ}
    (h : s.descriptor.seek offset.toNat whence = .ok p) :
    s.lseekSymbolized fd whence offset
      = if p < 2 ^ 32 then
          ⟨BitVec.ofNat 32 p, none, (s.lseek64Symbolized fd whence (offset.setWidth 64)).state⟩
        else
          ⟨-1, some .eoverflow,
            (s.lseek64Symbolized fd whence (offset.setWidth 64)).state⟩ := by
  have hp := (Descriptor.seek_eq_ok h).1
  rw [← toInt_setWidth_offset] at h
  rw [SeekState.lseekSymbolized, lseek64Symbolized_of_ok h]
  dsimp only
  refine if_congr (ofNat_eq_setWidth_iff hp) ?_ rfl
  congr 1
  exact BitVec.setWidth_ofNat_of_le (by decide) p

private theorem position?_lseekSymbolized_of_ok {offset : BitVec 32} {p : ℕ}
    (h : s.descriptor.seek offset.toNat whence = .ok p) :
    (s.lseekSymbolized fd whence offset).state.descriptor.position? = some p := by
  rw [lseekSymbolized_of_ok h, apply_ite SeekResult.state, ite_self,
    lseek64Symbolized_of_ok ((toInt_setWidth_offset offset).symm ▸ h)]
  exact (Descriptor.seek_eq_ok h).2

/-- The only error that is reported is the overflow. -/
theorem errno_lseekSymbolized_ne {offset : BitVec 32} {p : ℕ}
    (h : s.descriptor.seek offset.toNat whence = .ok p) {errno : Errno}
    (herrno : errno ≠ .eoverflow) : (s.lseekSymbolized fd whence offset).errno ≠ some errno := by
  rw [lseekSymbolized_of_ok h]
  split
  · exact fun h' ↦ nomatch h'
  · exact fun h' ↦ herrno (Option.some.inj h').symm

private theorem errno_lseek_of_error {offset : BitVec 32} {errno : Errno}
    (h : s.descriptor.seek offset.toInt whence = .error errno) :
    (s.lseek fd whence offset).errno = some errno := by
  rw [← BitVec.toInt_signExtend_of_le (show 32 ≤ 64 by decide)] at h
  rw [SeekState.lseek, lseek64Symbolized_of_error h]

private theorem position?_lseek_of_ok {offset : BitVec 32} {p : ℕ}
    (h : s.descriptor.seek offset.toInt whence = .ok p) :
    (s.lseek fd whence offset).state.descriptor.position? = some p := by
  have hp := (Descriptor.seek_eq_ok h).2
  rw [← BitVec.toInt_signExtend_of_le (show 32 ≤ 64 by decide)] at h
  rw [SeekState.lseek, lseek64Symbolized_of_ok h]
  dsimp only
  rw [apply_ite SeekResult.state, ite_self]
  exact hp

/-- The offset is not negative, and the call does not fail. -/
def SeeksForward (s : SeekState SymExpr) (whence : Int32) (offset : BitVec 32) : Prop :=
  offset.msb = false ∧ ∃ p, s.descriptor.seek offset.toNat whence = .ok p

/-- Without a sign, offsets are the same numbers in 64 bits. -/
theorem likeLseek_of_seeksForward {offset : BitVec 32} (h : SeeksForward s whence offset) :
    LikeLseek s fd whence offset := by
  obtain ⟨hmsb, p, hseek⟩ := h
  have hp := (Descriptor.seek_eq_ok hseek).1
  have hok : s.lseek64Symbolized fd whence (offset.setWidth 64) = _ :=
    lseek64Symbolized_of_ok ((toInt_setWidth_offset offset).symm ▸ hseek)
  have heq : s.lseek fd whence offset = s.lseekSymbolized fd whence offset := by
    rw [lseekSymbolized_of_ok hseek, SeekState.lseek,
      BitVec.signExtend_eq_setWidth_of_msb_false hmsb, hok]
    dsimp only
    refine if_congr ?_ ?_ rfl
    · rw [BitVec.toNat_ofNat]
      omega
    · congr 1
      exact BitVec.setWidth_ofNat_of_le (by decide) p
  refine ⟨by rw [heq], by rw [heq], by rw [heq], fun errno herrno ↦ ?_⟩
  rw [hok] at herrno
  cases herrno

/-- The wrapper behaves like `lseek` exactly if the offset is not negative and the call does not
fail. -/
theorem likeLseek_iff (s : SeekState SymExpr) (fd whence : Int32) (offset : BitVec 32) :
    LikeLseek s fd whence offset ↔ SeeksForward s whence offset := by
  refine ⟨fun h ↦ ?_, likeLseek_of_seeksForward⟩
  cases hseek : s.descriptor.seek offset.toNat whence with
  | error errno =>
    -- the error should be reported
    obtain ⟨-, herrno, -, -⟩ := h.failure errno
      (by rw [lseek64Symbolized_of_error ((toInt_setWidth_offset offset).symm ▸ hseek)])
    rw [errno_lseekSymbolized_of_error hseek] at herrno
    rw [← Option.some.inj herrno] at hseek
    exact absurd hseek (Descriptor.seek_ne_eoverflow _ _ _)
  | ok p' =>
    cases hmsb : offset.msb with
    | false => exact ⟨hmsb, p', hseek⟩
    | true =>
      have hneg : offset.toInt < 0 := BitVec.toInt_neg_of_msb_true hmsb
      cases htrue : s.descriptor.seek offset.toInt whence with
      | error errno =>
        -- the wrapper moves the descriptor instead
        have hne : errno ≠ .eoverflow := by
          rintro rfl
          exact Descriptor.seek_ne_eoverflow _ _ _ htrue
        exact absurd (h.errno_eq.trans (errno_lseek_of_error htrue))
          (errno_lseekSymbolized_ne hseek hne)
      | ok p =>
        -- the wrapper moves the descriptor too far
        have hadd := Descriptor.seek_eq_add hneg htrue (toNat_of_msb hmsb ▸ hseek)
        have hposition := h.position_eq
        rw [position?_lseekSymbolized_of_ok hseek, position?_lseek_of_ok htrue,
          Option.some.injEq] at hposition
        omega

end Wrapper

/-- One byte back in the middle of a file. -/
theorem not_likeLseek :
    ¬ LikeLseek
      ⟨.file ⟨5, 10, 2 ^ 63 - 1, by decide, by decide, by decide⟩, (.init : LibcState Empty)⟩
      3 1 (-1) := by
  intro h
  exact absurd h.position_eq (by decide)

end Adacc
