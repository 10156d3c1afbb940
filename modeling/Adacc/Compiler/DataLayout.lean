import Adacc.Compiler.IR

/-!
# Types and their layout

The pass asks LLVM for the sizes of types, the offsets of members and the byte order. `DataLayout`
has these functions, together with what LLVM documents about them: an array is its elements one
after the other, a member lies inside of its struct, and an integer takes as many bytes as its bits
need. Everything else about a layout, such as the padding, is left open.

The value of a type is kept in an expression of the sort of the type: Boolean for `i1`, a bit vector
of the width of the type for other integers and for pointers, and one of all bytes for an
aggregate.
-/

namespace Adacc.IR

open SmtLib

/-- LLVM types. -/
inductive Ty
  | int (width : ℕ)
  | pointer
  | floatingPoint (double : Bool)
  | array (element : Ty) (count : ℕ)
  | struct (elements : List Ty)

/-- `Type::isAggregateType` -/
def Ty.isAggregateType : Ty → Bool
  | .array _ _ | .struct _ => true
  | .int _ | .pointer | .floatingPoint _ => false

/-- `llvm::DataLayout`, with sizes and offsets in bytes. -/
structure DataLayout where
  isLittleEndian : Bool
  ptrBits : ℕ
  one_lt_ptrBits : 1 < ptrBits
  dvd_ptrBits : 8 ∣ ptrBits
  typeStoreSize : Ty → ℕ
  typeAllocSize : Ty → ℕ
  elementOffset : List Ty → ℕ → ℕ
  typeStoreSize_int : ∀ width, typeStoreSize (.int width) = (width + 7) / 8
  typeStoreSize_pointer : typeStoreSize .pointer = ptrBits / 8
  typeStoreSize_array : ∀ element count,
    typeStoreSize (.array element count) = count * typeAllocSize element
  typeStoreSize_le : ∀ ty, typeStoreSize ty ≤ typeAllocSize ty
  elementOffset_add_le : ∀ elements index element, elements[index]? = some element →
    elementOffset elements index + typeStoreSize element ≤ typeStoreSize (.struct elements)

/-- `Symbolizer::isLittleEndian` -/
def isLittleEndian (dl : DataLayout) (type : Ty) : Bool :=
  !type.isAggregateType && dl.isLittleEndian

/-! ## Integers of a type -/

/-- The sort of the expressions of an integer type. -/
def intSort (width : ℕ) : Srt := if width = 1 then .bool else .bitVec width

/-- The value that the expression of an integer should have. -/
def intValue {width : ℕ} (x : BitVec width) : Value :=
  if width = 1 then .bool (x != 0) else .bv width x

/-- The width of the expressions of a type that consists of whole bytes. -/
def DataLayout.byteWidth (dl : DataLayout) : Ty → Option ℕ
  | .int width => if 8 ∣ width then some width else none
  | .pointer => some dl.ptrBits
  | .floatingPoint _ => none
  | .array element count => some (8 * dl.typeStoreSize (.array element count))
  | .struct elements => some (8 * dl.typeStoreSize (.struct elements))

theorem DataLayout.byteWidth_eq {dl : DataLayout} {type : Ty} {width : ℕ}
    (h : dl.byteWidth type = some width) : width = 8 * dl.typeStoreSize type := by
  rcases type with w | - | double | ⟨element, count⟩ | elements
  · rw [byteWidth, Option.ite_none_right_eq_some, Option.some.injEq] at h
    obtain ⟨hdvd, rfl⟩ := h
    rw [dl.typeStoreSize_int]
    omega
  · obtain rfl := Option.some.inj h
    rw [dl.typeStoreSize_pointer, Nat.mul_div_cancel' dl.dvd_ptrBits]
  · cases h
  · exact (Option.some.inj h).symm
  · exact (Option.some.inj h).symm

/-! ## Paths into aggregates -/

/-- `ExtractValueInst::getIndexedType`: the type of the member that a path leads to, where all
indices are in range. -/
def Ty.indexed : Ty → List ℕ → Option Ty
  | ty, [] => some ty
  | .array element count, index :: indices =>
    if index < count then element.indexed indices else none
  | .struct elements, index :: indices =>
    (elements[index]?).bind fun element ↦ element.indexed indices
  | _, _ :: _ => none

/-- The offset of that member. -/
def DataLayout.memberOffset (dl : DataLayout) : Ty → List ℕ → ℕ
  | .array element _, index :: indices =>
    index * dl.typeAllocSize element + dl.memberOffset element indices
  | .struct elements, index :: indices =>
    dl.elementOffset elements index +
      (elements[index]?).elim 0 fun element ↦ dl.memberOffset element indices
  | _, _ => 0

@[simp] theorem Ty.indexed_nil (type : Ty) : type.indexed [] = some type := by cases type <;> rfl

@[simp] theorem DataLayout.memberOffset_nil (dl : DataLayout) (type : Ty) :
    dl.memberOffset type [] = 0 := by cases type <;> rfl

/-! ## A layout -/

namespace X86

/-- The next multiple of the alignment. -/
def alignTo (size align : ℕ) : ℕ := (size + align - 1) / align * align

theorem le_alignTo {align : ℕ} (h : 0 < align) (size : ℕ) : size ≤ alignTo size align := by
  have hmod := Nat.div_add_mod (size + align - 1) align
  have hlt := Nat.mod_lt (size + align - 1) h
  rw [alignTo, Nat.mul_comm]
  omega

mutual

/-- `DataLayout::getABITypeAlign` -/
def abiTypeAlign : Ty → ℕ
  | .int width => if width ≤ 8 then 1 else if width ≤ 16 then 2 else if width ≤ 32 then 4 else 8
  | .pointer => 8
  | .floatingPoint double => if double then 8 else 4
  | .array element _ => abiTypeAlign element
  | .struct elements => structAlignment elements

/-- `StructLayout::getAlignment` -/
def structAlignment : List Ty → ℕ
  | [] => 1
  | element :: elements => max (abiTypeAlign element) (structAlignment elements)

end

mutual

/-- `DataLayout::getTypeStoreSize` -/
def typeStoreSize : Ty → ℕ
  | .int width => (width + 7) / 8
  | .pointer => 8
  | .floatingPoint double => if double then 8 else 4
  | .array element count => count * alignTo (typeStoreSize element) (abiTypeAlign element)
  | .struct elements => alignTo (membersEnd elements 0) (structAlignment elements)

/-- Where the members end if the first one comes after `offset`. -/
def membersEnd : List Ty → ℕ → ℕ
  | [], offset => offset
  | element :: elements, offset =>
    membersEnd elements (alignTo offset (abiTypeAlign element) +
      alignTo (typeStoreSize element) (abiTypeAlign element))

end

/-- `DataLayout::getTypeAllocSize` -/
def typeAllocSize (type : Ty) : ℕ := alignTo (typeStoreSize type) (abiTypeAlign type)

/-- The offset of a member if the first one comes after `offset`. -/
def elementOffset : List Ty → ℕ → ℕ → ℕ
  | [], offset, _ => offset
  | element :: _, offset, 0 => alignTo offset (abiTypeAlign element)
  | element :: elements, offset, index + 1 =>
    elementOffset elements (alignTo offset (abiTypeAlign element) + typeAllocSize element) index

mutual

theorem abiTypeAlign_pos : ∀ type : Ty, 0 < abiTypeAlign type
  | .int width => by
    rw [abiTypeAlign]
    split_ifs <;> decide
  | .pointer => by decide
  | .floatingPoint double => by cases double <;> decide
  | .array element _ => by
    rw [abiTypeAlign]
    exact abiTypeAlign_pos element
  | .struct elements => by
    rw [abiTypeAlign]
    exact structAlignment_pos elements

private theorem structAlignment_pos : ∀ elements : List Ty, 0 < structAlignment elements
  | [] => by decide
  | element :: _ => by
    rw [structAlignment]
    exact lt_max_of_lt_left (abiTypeAlign_pos element)

end

theorem typeStoreSize_le (type : Ty) : typeStoreSize type ≤ typeAllocSize type :=
  le_alignTo (abiTypeAlign_pos type) _

private theorem le_membersEnd (elements : List Ty) (offset : ℕ) :
    offset ≤ membersEnd elements offset := by
  induction elements generalizing offset with
  | nil => exact Nat.le_refl offset
  | cons element elements ih =>
    rw [membersEnd]
    exact (le_alignTo (abiTypeAlign_pos element) offset).trans
      ((Nat.le_add_right _ _).trans (ih _))

private theorem elementOffset_add_le_membersEnd {elements : List Ty} {index : ℕ} {element : Ty}
    (offset : ℕ) (h : elements[index]? = some element) :
    elementOffset elements offset index + typeStoreSize element ≤ membersEnd elements offset := by
  induction elements generalizing offset index with
  | nil => cases h
  | cons first elements ih =>
    rw [membersEnd]
    rcases index with - | index
    · obtain rfl : first = element := Option.some.inj h
      exact (Nat.add_le_add_left (typeStoreSize_le first) _).trans (le_membersEnd elements _)
    · exact ih _ h

/-- A struct begins with its first member. -/
theorem elementOffset_zero (elements : List Ty) : elementOffset elements 0 0 = 0 := by
  rcases elements with - | ⟨element, elements⟩
  · rfl
  · have hpos := abiTypeAlign_pos element
    rw [elementOffset, alignTo, Nat.zero_add, Nat.div_eq_of_lt (by omega), Nat.zero_mul]

theorem one_lt_ptrBits : 1 < 64 := by decide

theorem typeStoreSize_int (width : ℕ) : typeStoreSize (.int width) = (width + 7) / 8 := by
  rw [typeStoreSize]

theorem typeStoreSize_array (element : Ty) (count : ℕ) :
    typeStoreSize (.array element count) = count * typeAllocSize element := by
  rw [typeStoreSize, typeAllocSize]

/-- A member ends before the padding at the end. -/
theorem elementOffset_add_le {elements : List Ty} {index : ℕ} {element : Ty}
    (h : elements[index]? = some element) :
    elementOffset elements 0 index + typeStoreSize element
      ≤ typeStoreSize (.struct elements) := by
  rw [typeStoreSize]
  exact (elementOffset_add_le_membersEnd 0 h).trans
    (le_alignTo (structAlignment_pos elements) _)

/-- The layout of x86-64. -/
def dataLayout : DataLayout where
  isLittleEndian := true
  ptrBits := 64
  one_lt_ptrBits := one_lt_ptrBits
  dvd_ptrBits := ⟨8, rfl⟩
  typeStoreSize := typeStoreSize
  typeAllocSize := typeAllocSize
  elementOffset elements := elementOffset elements 0
  typeStoreSize_int := typeStoreSize_int
  typeStoreSize_pointer := rfl
  typeStoreSize_array := typeStoreSize_array
  typeStoreSize_le := typeStoreSize_le
  elementOffset_add_le _ _ _ := elementOffset_add_le

/-- `struct { char; int[2]; short }` -/
example : typeStoreSize (.struct [.int 8, .array (.int 32) 2, .int 16]) = 16 := by decide

end X86

end Adacc.IR
