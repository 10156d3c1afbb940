import Adacc.Compiler.DataLayout
import Adacc.Compiler.Execution
import Adacc.SimpleBackend.Builders

/-!
# Loads and stores of any type

The pass turns a load into a call of `_sym_read_memory` and a store into one of `_sym_write_memory`,
with the store size of the type. The size is in bytes while an integer has bits: an integer whose
width is not a multiple of eight is stored with extractions that go beyond it, and is loaded as a
wider one (`storedAndLoaded_iff`).

Aggregates are loaded in the order of memory, which is big-endian, whatever the target is. Stores
use the order of the target for all types, so on a little-endian target the bytes of an aggregate
come out backwards (`copiesAggregate_iff`).
-/

namespace Adacc.TypedMemory

open SmtLib IR Backend ModularRange ByteOrder

variable {SymExpr : Type} [Backend SymExpr]

/-- The store size, as it is passed to the runtime library. -/
def storeSize (dl : DataLayout) (type : Ty) : SizeT := BitVec.ofNat 64 (dl.typeStoreSize type)

/-- The expression that the code of `Symbolizer::visitLoadInst` attaches to a load. Floating-point
types have a conversion on top. -/
def visitLoadInst (dl : DataLayout) (type : Ty) (mem : UIntPtr → BitVec 8)
    (pages : ShadowPages SymExpr) (addr : UIntPtr) : Option SymExpr :=
  symReadMemory mem pages addr (storeSize dl type) (isLittleEndian dl type)

/-- The effect of the code of `Symbolizer::visitStoreInst`. -/
def visitStoreInst (dl : DataLayout) (type : Ty) (addr : UIntPtr) (data : Option SymExpr)
    (pages : ShadowPages SymExpr) : ShadowPages SymExpr :=
  symWriteMemory addr (storeSize dl type) data dl.isLittleEndian pages

/-- The integer types of the fragment of the language. -/
def intTy : IntTy → Ty
  | .i8 => .int 8
  | .i16 => .int 16
  | .i32 => .int 32
  | .i64 => .int 64

private theorem storeSize_intTy (dl : DataLayout) (ty : IntTy) :
    storeSize dl (intTy ty) = ty.storeSize := by
  rcases ty <;> rw [storeSize, intTy, dl.typeStoreSize_int] <;> rfl

/-- For them, this is the code of the pass. -/
theorem exec_readMemory (dl : DataLayout) (ty : IntTy) (addr : Operand)
    (S : Symbolizer.SymState SymExpr) :
    (Symbolizer.SymCode.readMemory addr ty.storeSize dl.isLittleEndian).exec S
      = ((addr.eval S.state.env).bind (bits 64)).map fun a ↦
          (S.setExpr (visitLoadInst dl (intTy ty) S.state.mem S.pages a), []) := by
  have horder : isLittleEndian dl (intTy ty) = dl.isLittleEndian := by rcases ty <;> rfl
  rw [Symbolizer.SymCode.exec]
  simp only [visitLoadInst, storeSize_intTy, horder]

theorem exec_writeMemory (dl : DataLayout) (ty : IntTy) (addr : Operand)
    (expr : Symbolizer.SymOperand) (S : Symbolizer.SymState SymExpr) :
    (Symbolizer.SymCode.writeMemory addr ty.storeSize expr dl.isLittleEndian).exec S
      = ((addr.eval S.state.env).bind (bits 64)).map fun a ↦
          ({ S with pages := visitStoreInst dl (intTy ty) a (expr.eval S.exprs) S.pages }, []) := by
  rw [Symbolizer.SymCode.exec]
  simp only [visitStoreInst, storeSize_intTy]

theorem toNat_storeSize {dl : DataLayout} {type : Ty}
    (h : 8 * dl.typeStoreSize type < 2 ^ 64) :
    (storeSize dl type).toNat = dl.typeStoreSize type := by
  rw [storeSize, BitVec.toNat_ofNat, Nat.mod_eq_of_lt (by omega)]

omit [Backend SymExpr] in
/-- A range that is not longer than that is smaller than the address space. -/
theorem fastPathSound (pages : ShadowPages SymExpr) (addr : UIntPtr) {length : SizeT}
    (h : 8 * length.toNat < 2 ^ 64) : FastPathSound pages addr length := by
  have hoffset : (pageOffset addr).toNat < 4096 := by
    rw [toNat_pageOffset]
    exact Nat.mod_lt _ (by decide)
  exact FastPathSound.of_lt pages (by omega)

/-! ## Integers -/

/-- The first and the last bit of byte `i` that `_sym_write_memory` extracts. -/
def byteBits (length : SizeT) (littleEndian : Bool) (i : SizeT) : SizeT × SizeT :=
  if littleEndian then (8 * (i + 1) - 1, 8 * i) else ((length - i) * 8 - 1, (length - i - 1) * 8)

theorem extractByte_eq (e : SymExpr) (length : SizeT) (littleEndian : Bool) (i : SizeT) :
    extractByte e length littleEndian i
      = symExtractHelper e (byteBits length littleEndian i).1
          (byteBits length littleEndian i).2 := by
  cases littleEndian <;> rfl

/-- The bits are inside of the expression. -/
def BitsInside (e : SymExpr) (bits : SizeT × SizeT) : Prop :=
  ∃ width, HasBits e width ∧ bits.2.toNat ≤ bits.1.toNat ∧ bits.1.toNat < width

/-- Reading back a range in the order in which it has been written. -/
theorem exists_read_written {length : SizeT} {e : SymExpr} (hwidth : 8 * length.toNat < 2 ^ 64)
    (hlen : 0 < length.toNat) (addr : UIntPtr) (he : HasBits e (8 * length.toNat))
    (mem : UIntPtr → BitVec 8) (pages : ShadowPages SymExpr) (littleEndian : Bool) :
    ∃ e', symReadMemory mem (symWriteMemory addr length (some e) littleEndian pages) addr length
        littleEndian = some e' ∧ ∀ ρ, eval ρ e' = eval ρ e := by
  have hzero : (0 : SizeT).toNat = 0 := rfl
  obtain ⟨e', hread, heval⟩ := read_written pages addr e (k := 0) hlen (Nat.le_of_eq (by
    rw [hzero, Nat.zero_add])) hwidth mem littleEndian littleEndian
  rw [add_zero] at hread
  refine ⟨e', hread, fun ρ ↦ ?_⟩
  obtain ⟨x, hx⟩ := Value.exists_bv_of_sort ((sort_eval ρ e).trans he)
  have hlt : x.toNat < 256 ^ length.toNat := by
    rw [← show (2 ^ 8) ^ length.toNat = 256 ^ length.toNat from rfl, ← pow_mul]
    exact x.isLt
  rw [Value.bv_eq_ofNat] at hx
  rw [heval ρ x.toNat hx x.isLt, hx]
  simp only [hzero, Nat.zero_add]
  rw [encode_imageByte, Nat.mod_eq_of_lt hlt]

/-- What a store of an integer and a load from the same address should do. -/
def StoredAndLoaded (dl : DataLayout) (width : ℕ) (e : SymExpr) (addr : UIntPtr)
    (mem : UIntPtr → BitVec 8) (pages : ShadowPages SymExpr) : Prop :=
  (∀ i < dl.typeStoreSize (.int width),
      BitsInside e (byteBits (storeSize dl (.int width)) dl.isLittleEndian (BitVec.ofNat 64 i))) ∧
    ∃ e', visitLoadInst dl (.int width) mem
        (visitStoreInst dl (.int width) addr (some e) pages) addr = some e' ∧
      sort e' = intSort width ∧ ∀ ρ, eval ρ e' = eval ρ e

section Integers

variable {dl : DataLayout} {width : ℕ} {e : SymExpr}

private theorem toNat_byteBits {length : SizeT} (hwidth : 8 * length.toNat < 2 ^ 64)
    (littleEndian : Bool) {i : ℕ} (hi : i < length.toNat) :
    let k := if littleEndian then i else length.toNat - 1 - i
    (byteBits length littleEndian (BitVec.ofNat 64 i)).1.toNat = 8 * k + 7 ∧
      (byteBits length littleEndian (BitVec.ofNat 64 i)).2.toNat = 8 * k := by
  cases littleEndian
  · exact bigEndian_bits hwidth hi
  · exact littleEndian_bits hwidth hi

/-- If all bytes are inside of the expression, its width is a multiple of eight. -/
theorem dvd_of_bitsInside (hpos : 1 ≤ width) (hle : width ≤ 128) (he : sort e = intSort width)
    (h : ∀ i < dl.typeStoreSize (.int width),
      BitsInside e (byteBits (storeSize dl (.int width)) dl.isLittleEndian (BitVec.ofNat 64 i))) :
    8 ∣ width := by
  have hsize := dl.typeStoreSize_int width
  have hlength : (storeSize dl (.int width)).toNat = (width + 7) / 8 :=
    (toNat_storeSize (by omega)).trans hsize
  -- the byte with the highest bits
  let i := if dl.isLittleEndian then (width + 7) / 8 - 1 else 0
  have hi : i < (width + 7) / 8 := by
    dsimp only [i]
    split <;> omega
  have hk : (if dl.isLittleEndian then i else (width + 7) / 8 - 1 - i) = (width + 7) / 8 - 1 := by
    dsimp only [i]
    split <;> omega
  obtain ⟨hfirst, -⟩ := toNat_byteBits (by omega) dl.isLittleEndian (hlength.symm ▸ hi)
  obtain ⟨w, hbits, -, hlt⟩ := h i (hsize.symm ▸ hi)
  rw [hlength, hk] at hfirst
  have hw : intSort width = .bitVec w := he.symm.trans hbits
  rw [intSort] at hw
  split at hw
  · cases hw
  · obtain rfl := Srt.bitVec.inj hw
    omega

private theorem storedAndLoaded_of_dvd (hpos : 1 ≤ width) (hle : width ≤ 128)
    (he : sort e = intSort width)
    (hdvd : 8 ∣ width) (addr : UIntPtr) (mem : UIntPtr → BitVec 8) (pages : ShadowPages SymExpr) :
    StoredAndLoaded dl width e addr mem pages := by
  obtain ⟨n, rfl⟩ := hdvd
  have hsort : intSort (8 * n) = .bitVec (8 * n) := if_neg (by omega)
  have hsize : dl.typeStoreSize (.int (8 * n)) = n := by
    rw [dl.typeStoreSize_int]
    omega
  have hlength : (storeSize dl (.int (8 * n))).toNat = n :=
    (toNat_storeSize (by omega)).trans hsize
  have hwidth : 8 * (storeSize dl (.int (8 * n))).toNat < 2 ^ 64 := by omega
  constructor
  · intro i hi
    rw [hsize] at hi
    obtain ⟨hfirst, hlast⟩ := toNat_byteBits hwidth dl.isLittleEndian (hlength.symm ▸ hi)
    rw [hlength] at hfirst hlast
    refine ⟨8 * n, he.trans hsort, by omega, ?_⟩
    rw [hfirst]
    split <;> omega
  · obtain ⟨e', hread, heval⟩ := exists_read_written hwidth (hlength.symm ▸ by omega) addr
      (hlength.symm ▸ he.trans hsort) mem pages dl.isLittleEndian
    refine ⟨e', hread, ?_, heval⟩
    rw [← sort_eval fun _ ↦ 0, heval, sort_eval, he]

/-- A store and a load of an integer are inverse exactly when it consists of whole bytes. -/
theorem storedAndLoaded_iff (dl : DataLayout) {width : ℕ} (hpos : 1 ≤ width) (hle : width ≤ 128)
    (e : SymExpr) (he : sort e = intSort width) (addr : UIntPtr) (mem : UIntPtr → BitVec 8)
    (pages : ShadowPages SymExpr) : StoredAndLoaded dl width e addr mem pages ↔ 8 ∣ width := by
  constructor
  · rintro ⟨hinside, -⟩
    exact dvd_of_bitsInside hpos hle he hinside
  · intro hdvd
    exact storedAndLoaded_of_dvd hpos hle he hdvd addr mem pages

theorem storedAndLoaded_iff_i16 :
    StoredAndLoaded X86.dataLayout 16 (Z3Ast.symConcatHelper (.var 0) (.var 1)) 4096 (fun _ ↦ 0) ∅ ↔
      8 ∣ 16 :=
  storedAndLoaded_iff X86.dataLayout (by decide) (by decide) _ rfl 4096 _ _

/-- From a Boolean, eight bits are extracted. -/
theorem not_storedAndLoaded :
    ¬ StoredAndLoaded X86.dataLayout 1 (Z3Ast.symBuildCompare .eq (.var 0) (.numeral 8 65)) 4096
      (fun _ ↦ 0) ∅ := by
  rintro ⟨hinside, -⟩
  obtain ⟨width, hbits, -⟩ := hinside 0 (by decide)
  cases hbits

end Integers

/-! ## Aggregates -/

/-- What loading an aggregate from `p` and storing it to `q` should do to the bytes at `q`. -/
def CopiesAggregate (dl : DataLayout) (type : Ty) (p q : UIntPtr) (mem : UIntPtr → BitVec 8)
    (pages : ShadowPages SymExpr) : Prop :=
  let n := dl.typeStoreSize type
  let mem' := rangeUpdate mem q n fun i ↦ mem (p + BitVec.ofNat 64 i)
  let pages' := visitStoreInst dl type q (visitLoadInst dl type mem pages p) pages
  ∀ i < n, ∀ ρ, eval ρ (byteExpr mem' pages' (q + BitVec.ofNat 64 i))
    = eval ρ (byteExpr mem pages (p + BitVec.ofNat 64 i))

/-- No byte has an expression. -/
def NoExpressions (pages : ShadowPages SymExpr) (addr : UIntPtr) (n : ℕ) : Prop :=
  ∀ i < n, shadowAt pages (addr + BitVec.ofNat 64 i) = none

/-- The values of the bytes are the same when read backwards. -/
def Palindrome (mem : UIntPtr → BitVec 8) (pages : ShadowPages SymExpr) (addr : UIntPtr) (n : ℕ) :
    Prop :=
  ∀ i < n, ∀ ρ, eval ρ (byteExpr mem pages (addr + BitVec.ofNat 64 (n - 1 - i)))
    = eval ρ (byteExpr mem pages (addr + BitVec.ofNat 64 i))

section Aggregates

variable {dl : DataLayout} {type : Ty} {p q : UIntPtr} {mem : UIntPtr → BitVec 8}
  {pages : ShadowPages SymExpr}

theorem visitLoadInst_eq_none_iff (hwidth : 8 * dl.typeStoreSize type < 2 ^ 64) :
    visitLoadInst dl type mem pages p = none ↔ NoExpressions pages p (dl.typeStoreSize type) := by
  have hlength := toNat_storeSize hwidth
  rw [visitLoadInst, symReadMemory_eq_none_iff,
    isConcrete_iff (fastPathSound pages p (hlength.symm ▸ hwidth)), hlength, NoExpressions]

private theorem copiesAggregate_of_noExpressions (hwidth : 8 * dl.typeStoreSize type < 2 ^ 64)
    (h : NoExpressions pages p (dl.typeStoreSize type)) :
    CopiesAggregate dl type p q mem pages := by
  intro i hi ρ
  have hlength := toNat_storeSize hwidth
  have hi' : i < 2 ^ 64 := by omega
  have hshadow : shadowAt (visitStoreInst dl type q none pages) (q + BitVec.ofNat 64 i) = none := by
    rw [visitStoreInst,
      shadowAt_symWriteMemory _ _ (fastPathSound pages q (hlength.symm ▸ hwidth)), hlength,
      rangeUpdate_add_ofNat _ _ _ hi hi']
    rfl
  rw [(visitLoadInst_eq_none_iff hwidth).mpr h, byteExpr, byteExpr, hshadow, h i hi,
    rangeUpdate_add_ofNat _ _ _ hi hi']

/-- A copy of an aggregate that has an expression consists of its bytes in reverse order. -/
theorem eval_byteExpr_copy {e : SymExpr} (hagg : type.isAggregateType = true)
    (hle : dl.isLittleEndian = true) (hwidth : 8 * dl.typeStoreSize type < 2 ^ 64)
    (hbytes : RepresentsBytes pages p (dl.typeStoreSize type))
    (hload : visitLoadInst dl type mem pages p = some e) (mem' : UIntPtr → BitVec 8) {i : ℕ}
    (hi : i < dl.typeStoreSize type) (ρ : Input) :
    eval ρ (byteExpr mem' (visitStoreInst dl type q (some e) pages) (q + BitVec.ofNat 64 i))
      = eval ρ (byteExpr mem pages (p + BitVec.ofNat 64 (dl.typeStoreSize type - 1 - i))) := by
  have hlength := toNat_storeSize hwidth
  have horder : isLittleEndian dl type = false := by
    rw [isLittleEndian, hagg]
    rfl
  obtain ⟨f, hf⟩ := hbytes.exists_bytes ρ mem
  have hvalue := eval_symReadMemory (hlength.symm ▸ (Nat.zero_le i).trans_lt hi)
    (fun j hj ↦ hf j (hlength ▸ hj)) hload
  have hlt : encode false f (storeSize dl type).toNat < 2 ^ (8 * (storeSize dl type).toNat) := by
    rw [pow_mul]
    exact encode_lt false f _
  rw [horder] at hvalue
  -- byte `i` of the value in the order of the store is byte `n - 1 - i` in the order of the load
  have himage : imageByte true (dl.typeStoreSize type)
      (encode false f (dl.typeStoreSize type)) i = f (dl.typeStoreSize type - 1 - i) := by
    rw [show encode false f _ = encode (!true) f _ from rfl, encode_not]
    exact byteAt_encode hi
  rw [visitStoreInst, hle, byteExpr, shadowAt_written true (hlength.symm ▸ hi), Option.getD_some,
    eval_extractByte (hlength.symm ▸ hwidth) hvalue hlt true (hlength.symm ▸ hi), hlength, himage,
    hf _ (by omega)]

private theorem copiesAggregate_iff_palindrome (hagg : type.isAggregateType = true)
    (hle : dl.isLittleEndian = true) (hwidth : 8 * dl.typeStoreSize type < 2 ^ 64)
    (hbytes : RepresentsBytes pages p (dl.typeStoreSize type))
    (h : ¬ NoExpressions pages p (dl.typeStoreSize type)) :
    CopiesAggregate dl type p q mem pages ↔ Palindrome mem pages p (dl.typeStoreSize type) := by
  rw [← visitLoadInst_eq_none_iff hwidth, ← Ne, Option.ne_none_iff_exists'] at h
  obtain ⟨e, hload⟩ := h
  unfold CopiesAggregate Palindrome
  rw [hload]
  refine forall₂_congr fun i hi ↦ forall_congr' fun ρ ↦ ?_
  rw [eval_byteExpr_copy hagg hle hwidth hbytes hload _ hi]

/-- Copying an aggregate through a register copies its shadow exactly when nothing in it is symbolic
or its bytes form a palindrome. -/
theorem copiesAggregate_iff (hagg : type.isAggregateType = true)
    (hle : dl.isLittleEndian = true) (hwidth : 8 * dl.typeStoreSize type < 2 ^ 64)
    (hbytes : RepresentsBytes pages p (dl.typeStoreSize type)) :
    CopiesAggregate dl type p q mem pages ↔
      NoExpressions pages p (dl.typeStoreSize type) ∨
        Palindrome mem pages p (dl.typeStoreSize type) := by
  by_cases hnone : NoExpressions pages p (dl.typeStoreSize type)
  · exact iff_of_true (copiesAggregate_of_noExpressions hwidth hnone) (.inl hnone)
  · rw [copiesAggregate_iff_palindrome hagg hle hwidth hbytes hnone, or_iff_right hnone]

end Aggregates

/-- `struct { char; char }` -/
def charPair : Ty := .struct [.int 8, .int 8]

/-- Two input bytes at address 4096. -/
def inputPair : ShadowPages Z3Ast :=
  symMemset 4096 (some (.var 0)) 1 (symMemset 4097 (some (.var 1)) 1 ∅)

theorem shadowAt_inputPair :
    shadowAt inputPair = rangeUpdate (rangeUpdate (fun _ ↦ none) 4097 1 fun _ ↦ some (.var 1))
      4096 1 fun _ ↦ some (.var 0) := by
  have hfast : FastPathSound (∅ : ShadowPages Z3Ast) 4097 1 := fastPathSound ∅ 4097 (by decide)
  rw [inputPair, shadowAt_symMemset _ (fastPathSound _ 4096 (by decide)),
    shadowAt_symMemset _ hfast]
  rfl

private theorem representsBytes_inputPair : RepresentsBytes inputPair 4096 2 := by
  intro i hi e he
  rw [shadowAt_inputPair] at he
  obtain rfl | rfl : i = 0 ∨ i = 1 := by omega
  · obtain rfl := Option.some.inj he
    rfl
  · obtain rfl := Option.some.inj he
    rfl

/-- The equivalence for a pair of input bytes. -/
theorem copiesAggregate_iff_charPair :
    CopiesAggregate X86.dataLayout charPair 4096 8192 (fun _ ↦ 0) inputPair ↔
      NoExpressions inputPair 4096 2 ∨ Palindrome (fun _ ↦ 0) inputPair 4096 2 :=
  copiesAggregate_iff rfl rfl (by decide) representsBytes_inputPair

/-- The copy of a pair of input bytes has them in the wrong order. -/
theorem not_copiesAggregate :
    ¬ CopiesAggregate X86.dataLayout charPair 4096 8192 (fun _ ↦ 0) inputPair := by
  have hsymbolic : ¬ NoExpressions inputPair 4096 2 := by
    intro h
    have hnull := h 0 (by decide)
    rw [shadowAt_inputPair] at hnull
    cases hnull
  intro h
  have hpalindrome : Palindrome (fun _ ↦ 0) inputPair 4096 2 :=
    (copiesAggregate_iff_palindrome rfl rfl (by decide) representsBytes_inputPair hsymbolic).mp h
  have hvalues := hpalindrome 0 (by decide) fun offset ↦ BitVec.ofNat 8 offset
  rw [byteExpr, byteExpr, shadowAt_inputPair] at hvalues
  exact absurd hvalues (by decide)

end Adacc.TypedMemory
