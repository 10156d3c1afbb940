import Adacc.Runtime.ShadowAlgorithms

/-!
# Slots and memory operations of the runtime library

`RuntimeCommon.cpp`: the slots for the expressions of arguments and results, and copying, filling,
reading and writing shadow memory. Each memory function comes with the equation that says what it
does to `shadowAt`, from which everything later is derived.

The memory functions take the page map and return the new one. `_sym_read_memory` does not change
it; it reads the concrete memory for the bytes of the range that have no expression. Its
`assert(length && …)`, like the one of `_sym_write_memory`, is a precondition here: a range of
length zero is read as null and written without effect, which is what a build without assertions
does.

The order in which C++ evaluates the arguments of a call is not specified, and in
`std::copy(srcShadow.begin(), srcShadow.end(), destShadow.begin())` it decides whether the source
iterators see the page that the destination iterator creates. `leftToRight` chooses the order;
nothing depends on it.

## The fast path

`isConcrete` is exact only when its fast path is, so the specifications of the functions that rely
on it assume `FastPathSound` of the ranges they test.
-/

namespace Adacc

open ModularRange

variable {SymExpr : Type}

/-! ## The slots -/

/-- `g_return_value` and `g_function_arguments` -/
structure Slots (SymExpr : Type) where
  returnValue : Option SymExpr
  functionArguments : UInt8 → Option SymExpr

namespace Slots

/-- Global storage starts out as zero. -/
def init : Slots SymExpr := ⟨none, fun _ ↦ none⟩

/-- `_sym_set_return_expression` -/
def symSetReturnExpression (expr : Option SymExpr) (slots : Slots SymExpr) : Slots SymExpr :=
  { slots with returnValue := expr }

/-- `_sym_get_return_expression` -/
def symGetReturnExpression (slots : Slots SymExpr) : Option SymExpr × Slots SymExpr :=
  (slots.returnValue, { slots with returnValue := none })

/-- `_sym_set_parameter_expression` -/
def symSetParameterExpression (index : UInt8) (expr : Option SymExpr) (slots : Slots SymExpr) :
    Slots SymExpr :=
  { slots with functionArguments := Function.update slots.functionArguments index expr }

/-- `_sym_get_parameter_expression` -/
def symGetParameterExpression (index : UInt8) (slots : Slots SymExpr) : Option SymExpr :=
  slots.functionArguments index

end Slots

/-! ## Copying -/

/-- `_sym_memcpy` -/
def symMemcpy (leftToRight : Bool) (dest src : UIntPtr) (length : SizeT)
    (pages : ShadowPages SymExpr) : ShadowPages SymExpr :=
  if isConcrete pages src length && isConcrete pages dest length then pages
  else
    let (destBegin, pages') := WriteShadowIterator.mk' pages dest
    let seen := if leftToRight then pages else pages'
    stdCopy (ReadShadowIterator.mk' seen src) (ReadShadowIterator.mk' seen (src + length))
      destBegin pages'

/-- `_sym_memmove` -/
def symMemmove (leftToRight : Bool) (dest src : UIntPtr) (length : SizeT)
    (pages : ShadowPages SymExpr) : ShadowPages SymExpr :=
  if isConcrete pages src length && isConcrete pages dest length then pages
  else if dest > src then
    let (destEnd, pages') := WriteShadowIterator.mk' pages (dest + length)
    let seen := if leftToRight then pages else pages'
    stdCopyBackward (ReadShadowIterator.mk' seen src) (ReadShadowIterator.mk' seen (src + length))
      destEnd pages'
  else
    let (destBegin, pages') := WriteShadowIterator.mk' pages dest
    let seen := if leftToRight then pages else pages'
    stdCopy (ReadShadowIterator.mk' seen src) (ReadShadowIterator.mk' seen (src + length))
      destBegin pages'

/-- The source iterators are correct in either order of evaluation. -/
theorem tracks_mk'_seen {pages pages' : ShadowPages SymExpr} (hle : PagesLe pages pages')
    (leftToRight : Bool) (a : UIntPtr) :
    (ReadShadowIterator.mk' (if leftToRight then pages else pages') a).Tracks pages pages' := by
  cases leftToRight
  · exact ReadShadowIterator.Tracks.mk' hle a
  · exact (ReadShadowIterator.Tracks.mk' (PagesLe.refl pages) a).weaken hle

/-- Copying one concrete range over another changes no entry, so the fast path may skip it. -/
theorem rangeUpdate_concrete {pages : ShadowPages SymExpr} {dest src : UIntPtr} {length : SizeT}
    (hsrcFast : FastPathSound pages src length)
    (hdestFast : FastPathSound pages dest length)
    (h : (isConcrete pages src length && isConcrete pages dest length) = true) :
    rangeUpdate (shadowAt pages) dest length.toNat
      (fun i ↦ shadowAt pages (src + BitVec.ofNat 64 i)) = shadowAt pages := by
  rw [Bool.and_eq_true, isConcrete_iff hsrcFast, isConcrete_iff hdestFast] at h
  refine rangeUpdate_self fun i hi ↦ ?_
  rw [h.1 i hi, h.2 i hi]

/-- `std::copy` between two views, where nothing is overwritten before it is read. -/
theorem shadowAt_copy (pages : ShadowPages SymExpr) {dest src : UIntPtr} {length : SizeT}
    (leftToRight : Bool)
    (hsafe : ∀ i < length.toNat, ∀ j < i, dest + BitVec.ofNat 64 j ≠ src + BitVec.ofNat 64 i) :
    shadowAt (stdCopy
        (ReadShadowIterator.mk'
          (if leftToRight then pages else (WriteShadowIterator.mk' pages dest).2) src)
        (ReadShadowIterator.mk'
          (if leftToRight then pages else (WriteShadowIterator.mk' pages dest).2) (src + length))
        (WriteShadowIterator.mk' pages dest).1 (WriteShadowIterator.mk' pages dest).2)
      = rangeUpdate (shadowAt pages) dest length.toNat
          fun i ↦ shadowAt pages (src + BitVec.ofNat 64 i) := by
  have hbegin := WriteShadowIterator.reached_mk' pages dest
  exact stdCopy_spec length rfl (tracks_mk'_seen hbegin.pagesLe leftToRight src) hbegin.placed
    hbegin.shadowAt_eq hsafe

theorem shadowAt_symMemcpy {pages : ShadowPages SymExpr} {dest src : UIntPtr} {length : SizeT}
    (leftToRight : Bool) (hsrcFast : FastPathSound pages src length)
    (hdestFast : FastPathSound pages dest length)
    (hsafe : ∀ i < length.toNat, ∀ j < i, dest + BitVec.ofNat 64 j ≠ src + BitVec.ofNat 64 i) :
    shadowAt (symMemcpy leftToRight dest src length pages)
      = rangeUpdate (shadowAt pages) dest length.toNat
          fun i ↦ shadowAt pages (src + BitVec.ofNat 64 i) := by
  unfold symMemcpy
  split
  · next h => exact (rangeUpdate_concrete hsrcFast hdestFast h).symm
  · exact shadowAt_copy pages leftToRight hsafe

/-- Two positions of ranges inside the address space are apart when both the bases and the positions
are ordered. -/
private theorem add_ofNat_ne_of_lt {a b : UIntPtr} {n i j : ℕ} (ha : a.toNat + n ≤ 2 ^ 64)
    (hb : b.toNat + n ≤ 2 ^ 64) (hi : i < n) (hj : j < n) (hlt : a.toNat + i < b.toNat + j) :
    a + BitVec.ofNat 64 i ≠ b + BitVec.ofNat 64 j := by
  intro h
  have heq := congrArg BitVec.toNat h
  rw [BitVec.toNat_add, BitVec.toNat_add, BitVec.toNat_ofNat, BitVec.toNat_ofNat, Nat.add_mod_mod,
    Nat.add_mod_mod, Nat.mod_eq_of_lt (by omega), Nat.mod_eq_of_lt (by omega)] at heq
  omega

/-- Overlapping ranges are copied correctly in either direction. -/
theorem shadowAt_symMemmove {pages : ShadowPages SymExpr} {dest src : UIntPtr} {length : SizeT}
    (leftToRight : Bool) (hsrcFast : FastPathSound pages src length)
    (hdestFast : FastPathSound pages dest length)
    (hsrc : src.toNat + length.toNat ≤ 2 ^ 64) (hdest : dest.toNat + length.toNat ≤ 2 ^ 64) :
    shadowAt (symMemmove leftToRight dest src length pages)
      = rangeUpdate (shadowAt pages) dest length.toNat
          fun i ↦ shadowAt pages (src + BitVec.ofNat 64 i) := by
  unfold symMemmove
  split
  · next h => exact (rangeUpdate_concrete hsrcFast hdestFast h).symm
  split
  · next hgt =>
    -- downwards, what has been written is above everything that is still to be read
    have hlt : src.toNat < dest.toNat := hgt
    have hend := WriteShadowIterator.reached_mk' pages (dest + length)
    exact stdCopyBackward_spec length rfl hend.address_eq
      (tracks_mk'_seen hend.pagesLe leftToRight (src + length)) hend.placed hend.shadowAt_eq
      fun j hj i hi ↦
        (add_ofNat_ne_of_lt hsrc hdest (hi.trans hj) hj (Nat.add_lt_add hlt hi)).symm
  · next hle =>
    -- upwards, it is below
    have hle : dest.toNat ≤ src.toNat := Nat.le_of_not_lt hle
    refine shadowAt_copy pages leftToRight fun i hi j hj ↦ ?_
    exact add_ofNat_ne_of_lt hdest hsrc (hj.trans hi) hi (Nat.add_lt_add_of_le_of_lt hle hj)

/-! ## Filling -/

/-- `_sym_memset` -/
def symMemset (memory : UIntPtr) (value : Option SymExpr) (length : SizeT)
    (pages : ShadowPages SymExpr) : ShadowPages SymExpr :=
  if value.isNone && isConcrete pages memory length then pages
  else assignShadow (fun _ ↦ value) memory length pages

/-- Clearing a range that is concrete changes no entry. -/
theorem rangeUpdate_none {pages : ShadowPages SymExpr} {addr : UIntPtr} {length : SizeT}
    (hfast : FastPathSound pages addr length)
    (h : isConcrete pages addr length = true) :
    rangeUpdate (shadowAt pages) addr length.toNat (fun _ ↦ none) = shadowAt pages := by
  rw [isConcrete_iff hfast] at h
  exact rangeUpdate_self fun i hi ↦ (h i hi).symm

theorem shadowAt_symMemset {pages : ShadowPages SymExpr} {memory : UIntPtr} {length : SizeT}
    (value : Option SymExpr) (hfast : FastPathSound pages memory length) :
    shadowAt (symMemset memory value length pages)
      = rangeUpdate (shadowAt pages) memory length.toNat fun _ ↦ value := by
  unfold symMemset
  split
  · next h =>
    rw [Bool.and_eq_true, Option.isNone_iff_eq_none] at h
    rw [h.1, rangeUpdate_none hfast h.2]
  · exact shadowAt_assignShadow _ memory length pages

/-! ## Reading and writing values -/

variable [Backend SymExpr]

open Backend

/-- `NonNullReadShadowIterator::operator*` -/
def ReadShadowIterator.derefNonNull (mem : UIntPtr → BitVec 8) (pages : ShadowPages SymExpr)
    (it : ReadShadowIterator) : SymExpr :=
  match it.deref pages with
  | some symbolicResult => symbolicResult
  | none => symBuildInteger ((mem it.address_).setWidth 64) 8

/-- The loop of `std::accumulate` over non-null iterators, with the number of turns that remain. -/
def stdAccumulateLoop (mem : UIntPtr → BitVec 8) (pages : ShadowPages SymExpr)
    (op : Option SymExpr → SymExpr → Option SymExpr) (last : ReadShadowIterator) :
    ℕ → ReadShadowIterator → Option SymExpr → Option SymExpr
  | 0, _, result => result
  | n + 1, first, result =>
    if first.address_ = last.address_ then result
    else
      stdAccumulateLoop mem pages op last n (first.next pages)
        (op result (first.derefNonNull mem pages))

/-- `std::accumulate` -/
def stdAccumulate (mem : UIntPtr → BitVec 8) (pages : ShadowPages SymExpr)
    (first last : ReadShadowIterator) (init : Option SymExpr)
    (op : Option SymExpr → SymExpr → Option SymExpr) : Option SymExpr :=
  stdAccumulateLoop mem pages op last (last.address_ - first.address_).toNat first init

/-- The function that `_sym_read_memory` accumulates with. -/
def appendByte (littleEndian : Bool) (result : Option SymExpr) (byteExpr : SymExpr) :
    Option SymExpr :=
  match result with
  | none => some byteExpr
  | some result =>
    some (if littleEndian then symConcatHelper byteExpr result else symConcatHelper result byteExpr)

/-- `_sym_read_memory` -/
def symReadMemory (mem : UIntPtr → BitVec 8) (pages : ShadowPages SymExpr) (addr : UIntPtr)
    (length : SizeT) (littleEndian : Bool) : Option SymExpr :=
  if isConcrete pages addr length then none
  else
    stdAccumulate mem pages (ReadShadowIterator.mk' pages addr)
      (ReadShadowIterator.mk' pages (addr + length)) none (appendByte littleEndian)

/-- The expression that `_sym_write_memory` stores for byte `i` of `expr`. -/
def extractByte (expr : SymExpr) (length : SizeT) (littleEndian : Bool) (i : SizeT) : SymExpr :=
  if littleEndian then symExtractHelper expr (8 * (i + 1) - 1) (8 * i)
  else symExtractHelper expr ((length - i) * 8 - 1) ((length - i - 1) * 8)

/-- `_sym_write_memory` -/
def symWriteMemory (addr : UIntPtr) (length : SizeT) (expr : Option SymExpr)
    (littleEndian : Bool) (pages : ShadowPages SymExpr) : ShadowPages SymExpr :=
  if expr.isNone && isConcrete pages addr length then pages
  else
    match expr with
    | none => assignShadow (fun _ ↦ none) addr length pages
    | some expr =>
      assignShadow (fun i ↦ some (extractByte expr length littleEndian i)) addr length pages

/-- The expression of the byte at `a`: its shadow entry, or else a constant. -/
def byteExpr (mem : UIntPtr → BitVec 8) (pages : ShadowPages SymExpr) (a : UIntPtr) : SymExpr :=
  (shadowAt pages a).getD (symBuildInteger ((mem a).setWidth 64) 8)

theorem ReadShadowIterator.Tracks.derefNonNull_eq {pages : ShadowPages SymExpr}
    {it : ReadShadowIterator} (h : it.Tracks pages pages) (mem : UIntPtr → BitVec 8) :
    it.derefNonNull mem pages = byteExpr mem pages it.address_ := by
  unfold ReadShadowIterator.derefNonNull byteExpr
  rw [h.deref_eq rfl]
  cases shadowAt pages it.address_ <;> rfl

private theorem stdAccumulateLoop_eq {pages : ShadowPages SymExpr} (mem : UIntPtr → BitVec 8)
    (op : Option SymExpr → SymExpr → Option SymExpr) (last : ReadShadowIterator) {n : ℕ}
    (hn : n < 2 ^ 64) {first : ReadShadowIterator} (init : Option SymExpr)
    (hlast : last.address_ = first.address_ + BitVec.ofNat 64 n)
    (hfirst : first.Tracks pages pages) :
    stdAccumulateLoop mem pages op last n first init
      = (List.range n).foldl
          (fun result i ↦ op result (byteExpr mem pages (first.address_ + BitVec.ofNat 64 i)))
          init := by
  induction n generalizing first init with
  | zero => rfl
  | succ n ih =>
    rw [stdAccumulateLoop, if_neg (hlast ▸ ne_add_ofNat (Nat.succ_pos n) hn),
      hfirst.derefNonNull_eq,
      ih (by omega) _ (by rw [hlast, ReadShadowIterator.next_address, add_ofNat_succ]) hfirst.next,
      List.range_succ_eq_map, List.foldl_cons, List.foldl_map, add_ofNat_zero]
    simp only [ReadShadowIterator.next_address, add_ofNat_succ]

/-- Reading, without iterators: null for a concrete range, and otherwise the bytes joined in the
order of their addresses. -/
theorem symReadMemory_eq (mem : UIntPtr → BitVec 8) (pages : ShadowPages SymExpr) (addr : UIntPtr)
    (length : SizeT) (littleEndian : Bool) :
    symReadMemory mem pages addr length littleEndian
      = if isConcrete pages addr length then none
        else (List.range length.toNat).foldl (fun result i ↦
          appendByte littleEndian result (byteExpr mem pages (addr + BitVec.ofNat 64 i))) none := by
  have hsub : addr + length - addr = length := add_sub_cancel_left addr length
  have hloop := stdAccumulateLoop_eq mem (appendByte littleEndian)
    (ReadShadowIterator.mk' pages (addr + length)) length.isLt none
    (by rw [BitVec.ofNat_toNat, BitVec.setWidth_eq]; rfl)
    (ReadShadowIterator.Tracks.mk' (PagesLe.refl pages) addr)
  rw [symReadMemory, stdAccumulate]
  split
  · rfl
  · exact hsub.symm ▸ hloop

theorem shadowAt_symWriteMemory {pages : ShadowPages SymExpr} {addr : UIntPtr} {length : SizeT}
    (expr : Option SymExpr) (littleEndian : Bool)
    (hfast : FastPathSound pages addr length) :
    shadowAt (symWriteMemory addr length expr littleEndian pages)
      = rangeUpdate (shadowAt pages) addr length.toNat fun i ↦
          expr.map fun e ↦ extractByte e length littleEndian (BitVec.ofNat 64 i) := by
  unfold symWriteMemory
  split
  · next h =>
    rw [Bool.and_eq_true, Option.isNone_iff_eq_none] at h
    rw [h.1]
    exact (rangeUpdate_none hfast h.2).symm
  · cases expr with
    | none => exact shadowAt_assignShadow _ addr length pages
    | some e => exact shadowAt_assignShadow _ addr length pages

/-! ## Extracting bytes -/

/-- `_sym_bits_helper` -/
def symBitsHelper (expr : SymExpr) : SizeT :=
  match sort expr with
  | .bitVec w => BitVec.ofNat 64 w
  | .bool => 1

/-- `_sym_build_extract` -/
def symBuildExtract (expr : SymExpr) (offset length : BitVec 64) (littleEndian : Bool) : SymExpr :=
  let totalBits := symBitsHelper expr
  if littleEndian then
    (List.range (length.toNat - 1)).foldl
      (fun result i ↦
        symConcatHelper
          (symExtractHelper expr (totalBits - (offset + BitVec.ofNat 64 (i + 1)) * 8 - 1)
            (totalBits - (offset + BitVec.ofNat 64 (i + 1) + 1) * 8))
          result)
      (symExtractHelper expr (totalBits - offset * 8 - 1) (totalBits - offset * 8 - 8))
  else symExtractHelper expr (totalBits - offset * 8 - 1) (totalBits - (offset + length) * 8)

/-- `_sym_build_bswap` -/
def symBuildBswap (expr : SymExpr) : SymExpr :=
  symBuildExtract expr 0 (symBitsHelper expr / 8) true

end Adacc
