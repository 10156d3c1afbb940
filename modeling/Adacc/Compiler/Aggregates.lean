import Adacc.Compiler.TypedMemory
import Adacc.Runtime.ByteExtraction

/-!
# Members of aggregates

An extractvalue instruction picks a member of an aggregate in a register. Its visitor walks the type
along the indices, adding up offsets, and extracts the bytes of the member from the expression of
the aggregate, in the order of the member's type.

The sum is made in 64 bits, but the contribution of an array is a product of two `unsigned`. As long
as the aggregate is smaller than 4 GiB, no contribution is larger than the aggregate
(`visitIndices_eq`), and the extracted bytes are those that a load of the member would read.
-/

namespace Adacc.TypedMemory

open SmtLib IR Backend ModularRange ByteOrder

variable {SymExpr : Type} [Backend SymExpr]

/-- The loop of `Symbolizer::visitExtractValueInst` over the indices. -/
def visitIndices (dl : DataLayout) : BitVec 64 × Ty → List (BitVec 32) → Option (BitVec 64 × Ty)
  | (offset, indexedType), [] => some (offset, indexedType)
  | (offset, .struct elements), index :: indices =>
    (elements[index.toNat]?).bind fun element ↦
      visitIndices dl (offset + BitVec.ofNat 64 (dl.elementOffset elements index.toNat), element)
        indices
  | (offset, .array element _), index :: indices =>
    let elementSize : BitVec 32 := BitVec.ofNat 32 (dl.typeAllocSize element)
    visitIndices dl (offset + (elementSize * index).setWidth 64, element) indices
  | _, _ :: _ => none

/-- `Symbolizer::visitExtractValueInst`, where the aggregate has the expression `expr`. -/
def visitExtractValueInst (dl : DataLayout) (type : Ty) (indices : List (BitVec 32))
    (expr : SymExpr) : Option SymExpr :=
  (visitIndices dl (0, type) indices).map fun (offset, indexedType) ↦
    symBuildExtract expr offset (storeSize dl indexedType) (isLittleEndian dl indexedType)

/-! ## Offsets -/

section Offsets

variable {dl : DataLayout} {type member : Ty}

/-- An element of an array, and its offset, are not larger than the array. -/
theorem element_le (dl : DataLayout) (element : Ty) {count index : ℕ} (h : index < count) :
    index * dl.typeAllocSize element + dl.typeStoreSize element
      ≤ dl.typeStoreSize (.array element count) := by
  rw [dl.typeStoreSize_array]
  calc index * dl.typeAllocSize element + dl.typeStoreSize element
      ≤ index * dl.typeAllocSize element + dl.typeAllocSize element :=
        Nat.add_le_add_left (dl.typeStoreSize_le element) _
    _ = (index + 1) * dl.typeAllocSize element := (Nat.succ_mul _ _).symm
    _ ≤ count * dl.typeAllocSize element := Nat.mul_le_mul_right _ h

/-- A member lies inside of the aggregate. -/
theorem memberOffset_add_le (dl : DataLayout) {indices : List ℕ}
    (h : type.indexed indices = some member) :
    dl.memberOffset type indices + dl.typeStoreSize member ≤ dl.typeStoreSize type := by
  induction indices generalizing type with
  | nil =>
    rw [Ty.indexed_nil, Option.some.injEq] at h
    rw [DataLayout.memberOffset_nil, Nat.zero_add, h]
  | cons index indices ih =>
    cases type with
    | int | pointer | floatingPoint => cases h
    | array element count =>
      rw [Ty.indexed, Option.ite_none_right_eq_some] at h
      obtain ⟨hindex, h⟩ := h
      have hmember := ih h
      have helement := element_le dl element hindex
      rw [DataLayout.memberOffset]
      omega
    | struct elements =>
      rw [Ty.indexed, Option.bind_eq_some_iff] at h
      obtain ⟨element, hget, h⟩ := h
      have hmember := ih h
      have helement := dl.elementOffset_add_le elements index element hget
      rw [DataLayout.memberOffset, hget, Option.elim_some]
      omega

/-- The product of two `unsigned` that do not exceed an `unsigned`. -/
theorem setWidth_mul_ofNat {size : ℕ} {index : BitVec 32} (h : index.toNat * size < 2 ^ 32)
    (hsize : size < 2 ^ 32) :
    (BitVec.ofNat 32 size * index).setWidth 64 = BitVec.ofNat 64 (index.toNat * size) := by
  apply BitVec.eq_of_toNat_eq
  rw [BitVec.toNat_setWidth, BitVec.toNat_mul, BitVec.toNat_ofNat, BitVec.toNat_ofNat,
    Nat.mod_eq_of_lt hsize, Nat.mul_comm size, Nat.mod_eq_of_lt h]

/-- In an aggregate of less than 4 GiB, the loop over the indices finds the member. -/
theorem visitIndices_eq {indices : List (BitVec 32)}
    (h : type.indexed (indices.map BitVec.toNat) = some member)
    (hsize : dl.typeStoreSize type < 2 ^ 32) (offset : BitVec 64) :
    visitIndices dl (offset, type) indices
      = some (offset + BitVec.ofNat 64 (dl.memberOffset type (indices.map BitVec.toNat)),
          member) := by
  induction indices generalizing type offset with
  | nil =>
    rw [List.map_nil, Ty.indexed_nil, Option.some.injEq] at h
    rw [List.map_nil, DataLayout.memberOffset_nil, visitIndices, BitVec.add_zero, h]
  | cons index indices ih =>
    rw [List.map_cons] at h ⊢
    cases type with
    | int | pointer | floatingPoint => cases h
    | array element count =>
      rw [Ty.indexed, Option.ite_none_right_eq_some] at h
      obtain ⟨hindex, h⟩ := h
      have helement := element_le dl element hindex
      have halloc : dl.typeAllocSize element ≤ dl.typeStoreSize (.array element count) := by
        rw [dl.typeStoreSize_array]
        exact Nat.le_mul_of_pos_left _ (by omega)
      rw [visitIndices, ih h (by omega), setWidth_mul_ofNat (by omega) (by omega),
        DataLayout.memberOffset, BitVec.add_assoc, ← BitVec.ofNat_add]
    | struct elements =>
      rw [Ty.indexed, Option.bind_eq_some_iff] at h
      obtain ⟨element, hget, h⟩ := h
      have helement := dl.elementOffset_add_le elements _ element hget
      rw [visitIndices, hget, Option.bind_some, ih h (by omega), DataLayout.memberOffset, hget,
        Option.elim_some, BitVec.add_assoc, ← BitVec.ofNat_add]

end Offsets

/-! ## Values -/

/-- What `visitExtractValueInst` should do with the expression `e` of an aggregate that has been
loaded from `addr`: the result has the width of the member and consists of its bytes, so that it
evaluates like a load of the member where that has an expression, and otherwise to what is in
memory. -/
def ExtractsMember (dl : DataLayout) (type : Ty) (indices : List (BitVec 32)) (member : Ty)
    (width : ℕ) (mem : UIntPtr → BitVec 8) (pages : ShadowPages SymExpr) (addr : UIntPtr)
    (e : SymExpr) : Prop :=
  let a := addr + BitVec.ofNat 64 (dl.memberOffset type (indices.map BitVec.toNat))
  let n := dl.typeStoreSize member
  let order := isLittleEndian dl member
  ∃ r, visitExtractValueInst dl type indices e = some r ∧ HasBits r width ∧
    (∀ ρ f, (∀ i < n, eval ρ (byteExpr mem pages (a + BitVec.ofNat 64 i)) = .bv 8 (f i)) →
      eval ρ r = .ofNat width (encode order f n)) ∧
    (∀ e', visitLoadInst dl member mem pages a = some e' →
      HasBits e' width ∧ ∀ ρ, eval ρ r = eval ρ e') ∧
    (visitLoadInst dl member mem pages a = none → ∀ ρ,
      eval ρ r = .ofNat width (encode order (fun i ↦ mem (a + BitVec.ofNat 64 i)) n))

section Values

variable {dl : DataLayout} {type member : Ty} {indices : List (BitVec 32)}
  {mem : UIntPtr → BitVec 8} {pages : ShadowPages SymExpr} {addr : UIntPtr} {e : SymExpr}

/-- The result consists of the bytes of the member. -/
theorem visitExtractValueInst_spec (hmember : type.indexed (indices.map BitVec.toNat) = some member)
    (hagg : type.isAggregateType = true) (hsize : dl.typeStoreSize type < 2 ^ 32)
    (hpos : 0 < dl.typeStoreSize member)
    (hbytes : RepresentsBytes pages addr (dl.typeStoreSize type))
    (hload : visitLoadInst dl type mem pages addr = some e) :
    ∃ r, visitExtractValueInst dl type indices e = some r ∧
      HasBits r (8 * dl.typeStoreSize member) ∧
      ∀ ρ (f : ℕ → BitVec 8), (∀ i < dl.typeStoreSize member,
          eval ρ (byteExpr mem pages (addr
            + BitVec.ofNat 64 (dl.memberOffset type (indices.map BitVec.toNat))
            + BitVec.ofNat 64 i)) = .bv 8 (f i)) →
        eval ρ r = .ofNat (8 * dl.typeStoreSize member)
          (encode (isLittleEndian dl member) f (dl.typeStoreSize member)) := by
  have hlength : (storeSize dl type).toNat = dl.typeStoreSize type := toNat_storeSize (by omega)
  have hinside := memberOffset_add_le dl hmember
  have hpart : (storeSize dl member).toNat = dl.typeStoreSize member := toNat_storeSize (by omega)
  have hstart : (0 + BitVec.ofNat 64 (dl.memberOffset type (indices.map BitVec.toNat))).toNat
      = dl.memberOffset type (indices.map BitVec.toNat) := by
    rw [zero_add, BitVec.toNat_ofNat, Nat.mod_eq_of_lt (by omega)]
  have hbits : HasBits e (8 * dl.typeStoreSize type) := by
    have h := hasBits_symReadMemory (hlength.symm ▸ by omega) (hlength.symm ▸ hbytes) hload
    rwa [hlength] at h
  have horder : isLittleEndian dl type = false := by
    rw [isLittleEndian, hagg]
    rfl
  obtain ⟨hwidth, -, heval⟩ := extractsBytes hbits (by omega) (hpart.symm ▸ hpos)
    (by rw [hstart, hpart]; exact hinside) (isLittleEndian dl member)
  rw [hpart] at hwidth heval
  refine ⟨_, ?_, hwidth, fun ρ f hf ↦ ?_⟩
  · rw [visitExtractValueInst, visitIndices_eq hmember hsize]
    rfl
  · obtain ⟨g, hg⟩ := hbytes.exists_bytes ρ mem
    have hvalue := eval_symReadMemory (hlength.symm ▸ by omega)
      (fun j hj ↦ hg j (hlength ▸ hj)) hload
    rw [hlength, horder] at hvalue
    have hlt : encode false g (dl.typeStoreSize type) < 2 ^ (8 * dl.typeStoreSize type) := by
      rw [pow_mul]
      exact encode_lt false g _
    rw [heval ρ _ hlt hvalue, hstart]
    -- position `i` of the member is position `offset + i` of the aggregate
    refine congrArg _ (encode_congr fun i hi ↦ ?_)
    have hbyte := hg (dl.memberOffset type (indices.map BitVec.toNat) + i) (by omega)
    rw [imageByte_encode false g (by omega)]
    rw [← add_ofNat_add, hf i hi] at hbyte
    exact (Value.bv_inj hbyte).symm

/-- Extracting a member agrees with loading it. -/
theorem extractsMember {width : ℕ}
    (hmember : type.indexed (indices.map BitVec.toNat) = some member)
    (hagg : type.isAggregateType = true) (hsize : dl.typeStoreSize type < 2 ^ 32)
    (hpos : 0 < dl.typeStoreSize member) (hwidth : dl.byteWidth member = some width)
    (hbytes : RepresentsBytes pages addr (dl.typeStoreSize type))
    (hload : visitLoadInst dl type mem pages addr = some e) :
    ExtractsMember dl type indices member width mem pages addr e := by
  obtain rfl := DataLayout.byteWidth_eq hwidth
  have hinside := memberOffset_add_le dl hmember
  have hpart : (storeSize dl member).toNat = dl.typeStoreSize member := toNat_storeSize (by omega)
  obtain ⟨r, hr, hbits, heval⟩ :=
    visitExtractValueInst_spec hmember hagg hsize hpos hbytes hload
  have hmemberBytes : RepresentsBytes pages
      (addr + BitVec.ofNat 64 (dl.memberOffset type (indices.map BitVec.toNat)))
      (dl.typeStoreSize member) := by
    intro i hi e' he'
    rw [add_ofNat_add] at he'
    exact hbytes _ (by omega) e' he'
  refine ⟨r, hr, hbits, heval, fun e' he' ↦ ?_, fun hnull ρ ↦ heval ρ _ fun i hi ↦ ?_⟩
  · have hmemberBits := hasBits_symReadMemory (hpart.symm ▸ hpos) (hpart.symm ▸ hmemberBytes) he'
    refine ⟨hpart ▸ hmemberBits, fun ρ ↦ ?_⟩
    obtain ⟨f, hf⟩ := hmemberBytes.exists_bytes ρ mem
    have hvalue := eval_symReadMemory (hpart.symm ▸ hpos) (fun j hj ↦ hf j (hpart ▸ hj)) he'
    rw [heval ρ f hf, hvalue, hpart]
  · have hnone := (visitLoadInst_eq_none_iff (by omega)).mp hnull i hi
    rw [byteExpr, hnone]
    exact eval_constantByte ρ _

end Values

/-- `struct { char; struct { short[2]; char } }` -/
def nested : Ty := .struct [.int 8, .struct [.array (.int 16) 2, .int 8]]

/-- A struct whose element 1 of the inner array has an input byte at its end. -/
def inputNested : ShadowPages Z3Ast := symMemset 4101 (some (.var 0)) 1 ∅

private theorem shadowAt_inputNested :
    shadowAt inputNested = rangeUpdate (fun _ ↦ none) 4101 1 fun _ ↦ some (.var 0) :=
  shadowAt_symMemset _ (fastPathSound ∅ 4101 (by decide))

private theorem representsBytes_inputNested : RepresentsBytes inputNested 4096 8 := by
  intro i _ e he
  rw [shadowAt_inputNested] at he
  unfold rangeUpdate at he
  split at he
  · cases he
    rfl
  · cases he

/-- The law for element 1 of the inner array, which is at offset 4. -/
theorem extractsMember_nested :
    ∃ e, visitLoadInst X86.dataLayout nested (fun _ ↦ 0) inputNested 4096 = some e ∧
      ExtractsMember X86.dataLayout nested [1, 0, 1] (.int 16) 16 (fun _ ↦ 0) inputNested 4096
        e := by
  have hsymbolic : visitLoadInst X86.dataLayout nested (fun _ ↦ 0) inputNested 4096 ≠ none := by
    rw [Ne, visitLoadInst_eq_none_iff (by decide)]
    intro h
    have hnull := h 5 (by decide)
    rw [shadowAt_inputNested] at hnull
    cases hnull
  obtain ⟨e, he⟩ := Option.ne_none_iff_exists'.mp hsymbolic
  exact ⟨e, he, extractsMember rfl rfl (by decide) (by decide) rfl representsBytes_inputNested he⟩

end Adacc.TypedMemory
