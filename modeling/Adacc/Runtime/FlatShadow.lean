import Adacc.Foundation.Machine
import Adacc.Runtime.RuntimeCommon
import Adacc.SimpleBackend.Builders

/-!
# Paged shadow memory refines a flat map

The purpose of shadow memory is to hold one expression per address. A `FlatShadow` is just that.
The calls of the runtime library that touch shadow memory are the inputs of two machines, one that
runs the library's code on pages and one that updates a flat map, and `shadowAt` is the map of
states between them. `flatShadow_refines` says that they agree on every sequence of calls, in what
they leave in memory and in what they answer.

A call comes with its ranges, which have to lie in the address space. The refinement needs more
(`Fits`): the fast path of `isConcrete` must not be taken for a range that has an expression. By
`fastPathSound_iff` it only ever is for a range that starts in the lowest page, ends exactly at the
top of the address space, and whose first page has no shadow. `not_flatShadow_refines` shows that
such a range is called concrete whatever it holds.
-/

namespace Adacc

open ModularRange

variable {SymExpr : Type}

/-! ## Calls -/

/-- A call that reads or changes shadow memory. For copies the order in which the arguments of
`std::copy` are evaluated, and for reads the concrete memory at that time, belong to the call. -/
inductive ShadowCall (SymExpr : Type)
  | writeMemory (addr : UIntPtr) (length : SizeT) (expr : Option SymExpr) (littleEndian : Bool)
  | memset (memory : UIntPtr) (value : Option SymExpr) (length : SizeT)
  | memmove (leftToRight : Bool) (dest src : UIntPtr) (length : SizeT)
  | memcpy (leftToRight : Bool) (dest src : UIntPtr) (length : SizeT)
  | readMemory (mem : UIntPtr → BitVec 8) (addr : UIntPtr) (length : SizeT) (littleEndian : Bool)
  | isConcrete (addr : UIntPtr) (length : SizeT)

/-- Two ranges have no address in common. -/
def DisjointRanges (a b : UIntPtr) (length : SizeT) : Prop :=
  a.toNat + length.toNat ≤ b.toNat ∨ b.toNat + length.toNat ≤ a.toNat

instance (a b : UIntPtr) (length : SizeT) : Decidable (DisjointRanges a b length) :=
  inferInstanceAs (Decidable (_ ∨ _))

/-- The conditions on the ranges of a call: each satisfies `fits`, and `_sym_memcpy` gets disjoint
or identical ones. -/
def ShadowCall.Admissible (fits : UIntPtr → SizeT → Prop) : ShadowCall SymExpr → Prop
  | .writeMemory addr length _ _ => fits addr length
  | .memset memory _ length => fits memory length
  | .memmove _ dest src length => fits dest length ∧ fits src length
  | .memcpy _ dest src length =>
    fits dest length ∧ fits src length ∧ (dest = src ∨ DisjointRanges dest src length)
  | .readMemory _ addr length _ => fits addr length
  | .isConcrete addr length => fits addr length

instance (fits : UIntPtr → SizeT → Prop) [∀ addr length, Decidable (fits addr length)] :
    DecidablePred (@ShadowCall.Admissible SymExpr fits)
  | .writeMemory addr length _ _ => inferInstanceAs (Decidable (fits addr length))
  | .memset memory _ length => inferInstanceAs (Decidable (fits memory length))
  | .memmove _ dest src length => inferInstanceAs (Decidable (fits dest length ∧ fits src length))
  | .memcpy _ dest src length =>
    inferInstanceAs (Decidable (fits dest length ∧ fits src length ∧
      (dest = src ∨ DisjointRanges dest src length)))
  | .readMemory _ addr length _ => inferInstanceAs (Decidable (fits addr length))
  | .isConcrete addr length => inferInstanceAs (Decidable (fits addr length))

/-- The range lies in the address space. -/
def InAddressSpace (addr : UIntPtr) (length : SizeT) : Prop :=
  addr.toNat + length.toNat ≤ 2 ^ 64

instance (addr : UIntPtr) (length : SizeT) : Decidable (InAddressSpace addr length) :=
  inferInstanceAs (Decidable (_ ≤ _))

/-- The range lies in the address space, and if `isConcrete` takes its fast path for it, then it has
no expression. -/
def Fits (pages : ShadowPages SymExpr) (addr : UIntPtr) (length : SizeT) : Prop :=
  InAddressSpace addr length ∧ FastPathSound pages addr length

/-- Inside the address space the fast path can only go wrong for a range from the lowest page to the
very top. -/
theorem fastPathSound_iff {pages : ShadowPages SymExpr} {addr : UIntPtr} {length : SizeT}
    (hspace : InAddressSpace addr length) :
    FastPathSound pages addr length ↔
      (addr.toNat < 4096 → addr.toNat + length.toNat = 2 ^ 64 →
        pages.lookup (pageStart addr) = none →
          ∀ i < length.toNat, shadowAt pages (addr + BitVec.ofNat 64 i) = none) := by
  rw [InAddressSpace] at hspace
  constructor
  · intro hfast hlow htop
    apply hfast
    rw [pageStart_eq_iff, BitVec.toNat_add]
    omega
  · intro h
    by_cases hwrap : (pageOffset addr).toNat + length.toNat < 2 ^ 64
    · exact FastPathSound.of_lt pages hwrap
    · rw [toNat_pageOffset] at hwrap
      exact fun _ hnone ↦ h (by omega) (by omega) hnone

/-! ## The machine of the runtime library -/

section Paged

variable [Backend SymExpr]

/-- A call on the pages. The answer of a read is whether its result is null. -/
def ShadowCall.exec (pages : ShadowPages SymExpr) :
    ShadowCall SymExpr → ShadowPages SymExpr × Option Bool
  | .writeMemory addr length expr littleEndian =>
    (symWriteMemory addr length expr littleEndian pages, none)
  | .memset memory value length => (symMemset memory value length pages, none)
  | .memmove leftToRight dest src length => (symMemmove leftToRight dest src length pages, none)
  | .memcpy leftToRight dest src length => (symMemcpy leftToRight dest src length pages, none)
  | .readMemory mem addr length littleEndian =>
    (pages, some (symReadMemory mem pages addr length littleEndian).isNone)
  | .isConcrete addr length => (pages, some (Adacc.isConcrete pages addr length))

end Paged

/-! ## The flat machine -/

/-- One expression, or null, per address. -/
abbrev FlatShadow (SymExpr : Type) := UIntPtr → Option SymExpr

namespace FlatShadow

/-- Every byte of the range is null. -/
def allNull (m : FlatShadow SymExpr) (addr : UIntPtr) (length : SizeT) : Bool :=
  (List.range length.toNat).all fun i ↦ (m (addr + BitVec.ofNat 64 i)).isNone

theorem allNull_iff {m : FlatShadow SymExpr} {addr : UIntPtr} {length : SizeT} :
    m.allNull addr length = true ↔ ∀ i < length.toNat, m (addr + BitVec.ofNat 64 i) = none := by
  simp only [allNull, List.all_eq_true, List.mem_range, Option.isNone_iff_eq_none]

/-- Every byte of the destination gets the entry that its source byte has before the call. -/
def copy (m : FlatShadow SymExpr) (dest src : UIntPtr) (length : SizeT) : FlatShadow SymExpr :=
  rangeUpdate m dest length.toNat fun i ↦ m (src + BitVec.ofNat 64 i)

variable [Backend SymExpr]

def exec (m : FlatShadow SymExpr) : ShadowCall SymExpr → FlatShadow SymExpr × Option Bool
  | .writeMemory addr length expr littleEndian =>
    (rangeUpdate m addr length.toNat fun i ↦
      expr.map fun e ↦ extractByte e length littleEndian (BitVec.ofNat 64 i), none)
  | .memset memory value length => (rangeUpdate m memory length.toNat fun _ ↦ value, none)
  | .memmove _ dest src length => (m.copy dest src length, none)
  | .memcpy _ dest src length => (m.copy dest src length, none)
  | .readMemory _ addr length _ => (m, some (m.allNull addr length))
  | .isConcrete addr length => (m, some (m.allNull addr length))

end FlatShadow

/-! ## Refinement -/

private theorem isConcrete_eq_allNull {pages : ShadowPages SymExpr} {addr : UIntPtr}
    {length : SizeT} (h : FastPathSound pages addr length) :
    isConcrete pages addr length = FlatShadow.allNull (shadowAt pages) addr length := by
  rw [Bool.eq_iff_iff, isConcrete_iff h, FlatShadow.allNull_iff]

theorem safe_of_disjoint {dest src : UIntPtr} {length : SizeT}
    (hdest : InAddressSpace dest length) (hsrc : InAddressSpace src length)
    (h : dest = src ∨ DisjointRanges dest src length) :
    ∀ i < length.toNat, ∀ j < i, dest + BitVec.ofNat 64 j ≠ src + BitVec.ofNat 64 i := by
  intro i hi j hj heq
  have hlen := length.isLt
  rw [InAddressSpace] at hdest hsrc
  rcases h with rfl | hdisj
  -- copying a range to itself reads an entry before writing it
  · have := add_ofNat_injective (by omega) (by omega) heq
    omega
  · have hnat := congrArg BitVec.toNat heq
    rw [BitVec.toNat_add, BitVec.toNat_add, BitVec.toNat_ofNat, BitVec.toNat_ofNat,
      Nat.add_mod_mod, Nat.add_mod_mod, Nat.mod_eq_of_lt (by omega), Nat.mod_eq_of_lt (by omega)]
      at hnat
    rw [DisjointRanges] at hdisj
    omega

section Refinement

variable [Backend SymExpr]

theorem isNone_symReadMemory (mem : UIntPtr → BitVec 8) (pages : ShadowPages SymExpr)
    (addr : UIntPtr) (length : SizeT) (littleEndian : Bool) :
    (symReadMemory mem pages addr length littleEndian).isNone
      = isConcrete pages addr length := by
  -- a loop over at least one byte ends with an expression
  have hloop : ∀ (f : ℕ → SymExpr) (n : ℕ), 0 < n →
      ((List.range n).foldl (fun result i ↦ appendByte littleEndian result (f i)) none).isNone
        = false := by
    intro f n hn
    obtain ⟨k, rfl⟩ := Nat.exists_eq_succ_of_ne_zero hn.ne'
    rw [List.range_succ, List.foldl_append, List.foldl_cons, List.foldl_nil]
    unfold appendByte
    split <;> rfl
  rw [symReadMemory_eq]
  split
  · next h => rw [h, Option.isNone_none]
  · next h =>
    -- an empty range is concrete
    have hpos : 0 < length.toNat := by
      by_contra h0
      apply h
      have hlen : length = 0 := BitVec.eq_of_toNat_eq (by simpa using h0)
      rw [hlen, isConcrete_zero]
    rw [hloop _ _ hpos, Bool.not_eq_true _ |>.mp h]

/-- One call. -/
theorem exec_refines (pages : ShadowPages SymExpr) (call : ShadowCall SymExpr)
    (h : call.Admissible (Fits pages)) :
    FlatShadow.exec (shadowAt pages) call
      = (shadowAt (call.exec pages).1, (call.exec pages).2) := by
  cases call with
  | writeMemory addr length expr littleEndian =>
    exact Prod.ext (shadowAt_symWriteMemory expr littleEndian h.2).symm rfl
  | memset memory value length => exact Prod.ext (shadowAt_symMemset value h.2).symm rfl
  | memmove leftToRight dest src length =>
    obtain ⟨hdest, hsrc⟩ := h
    exact Prod.ext (shadowAt_symMemmove leftToRight hsrc.2 hdest.2 hsrc.1 hdest.1).symm rfl
  | memcpy leftToRight dest src length =>
    obtain ⟨hdest, hsrc, hranges⟩ := h
    exact Prod.ext (shadowAt_symMemcpy leftToRight hsrc.2 hdest.2
      (safe_of_disjoint hdest.1 hsrc.1 hranges)).symm rfl
  | readMemory mem addr length littleEndian =>
    rw [FlatShadow.exec, ShadowCall.exec, isNone_symReadMemory, isConcrete_eq_allNull h.2]
  | isConcrete addr length => rw [FlatShadow.exec, ShadowCall.exec, isConcrete_eq_allNull h.2]

/-- The paged shadow refines a flat map, over every sequence of calls and from every state. -/
theorem flatShadow_refines (pages : ShadowPages SymExpr) (calls : List (ShadowCall SymExpr))
    (hcalls : Machine.Along ShadowCall.exec (fun pages call ↦ call.Admissible (Fits pages))
      pages calls) :
    Machine.run FlatShadow.exec (shadowAt pages) calls
      = (shadowAt (Machine.run ShadowCall.exec pages calls).1,
          (Machine.run ShadowCall.exec pages calls).2) :=
  Machine.run_refines shadowAt exec_refines hcalls

end Refinement

/-- A write to the second page, and two tests of the range from address 1 to the top. -/
def lowToTop : List (ShadowCall Z3Ast) :=
  [.memset 4096 (some (.var 0)) 1, .isConcrete 1 (-1), .readMemory (fun _ ↦ 0) 1 (-1) true]

/-- For ranges that merely lie in the address space the refinement fails: the range from address 1
to the top contains a byte with an expression, and both tests call it concrete. -/
theorem not_flatShadow_refines :
    ¬ ∀ (pages : ShadowPages Z3Ast) (calls : List (ShadowCall Z3Ast)),
      (∀ call ∈ calls, call.Admissible InAddressSpace) →
        Machine.run FlatShadow.exec (shadowAt pages) calls
          = (shadowAt (Machine.run ShadowCall.exec pages calls).1,
              (Machine.run ShadowCall.exec pages calls).2) := by
  intro h
  have hadm : ∀ call ∈ lowToTop, call.Admissible InAddressSpace := by decide
  have hrun := congrArg Prod.snd (h ∅ lowToTop hadm)
  have hcode : (Machine.run ShadowCall.exec ∅ lowToTop).2 = [none, some true, some true] := by
    decide
  have hflat : FlatShadow.allNull (rangeUpdate (shadowAt ∅) 4096 (1 : SizeT).toNat fun _ ↦
      some (SmtLib.Term.var 0)) 1 (-1) = false := by
    rw [← Bool.not_eq_true, FlatShadow.allNull_iff]
    intro hall
    have := hall 4095 (by decide)
    rw [show (1 : UIntPtr) + BitVec.ofNat 64 4095 = 4096 by decide] at this
    simp [rangeUpdate] at this
  rw [hcode] at hrun
  have hsecond := congrArg (fun l ↦ l[1]?) hrun
  simp only [lowToTop, Machine.run_cons, FlatShadow.exec, List.getElem?_cons_succ,
    List.getElem?_cons_zero, hflat] at hsecond
  simp at hsecond

/-- The refinement at work: an overlapping move of symbolic bytes over a page boundary. -/
theorem flatShadow_refines_overlap :
    Machine.run FlatShadow.exec (shadowAt (∅ : ShadowPages Z3Ast))
        [.memset 4094 (some (.var 0)) 4, .memmove true 4095 4094 4, .isConcrete 4094 5]
      = (shadowAt (Machine.run ShadowCall.exec (∅ : ShadowPages Z3Ast)
          [.memset 4094 (some (.var 0)) 4, .memmove true 4095 4094 4, .isConcrete 4094 5]).1,
        (Machine.run ShadowCall.exec (∅ : ShadowPages Z3Ast)
          [.memset 4094 (some (.var 0)) 4, .memmove true 4095 4094 4, .isConcrete 4094 5]).2) :=
  flatShadow_refines ∅ _
    ⟨⟨by decide, FastPathSound.of_lt _ (by decide)⟩,
      ⟨⟨by decide, FastPathSound.of_lt _ (by decide)⟩, by decide,
        FastPathSound.of_lt _ (by decide)⟩,
      ⟨by decide, FastPathSound.of_lt _ (by decide)⟩, trivial⟩

end Adacc
