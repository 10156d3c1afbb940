import Adacc.Foundation.ByteOrder
import Adacc.Runtime.FlatShadow

/-!
# Values in memory

Shadow memory agrees with concrete memory when every expression in it evaluates to the byte at its
address (`Consistent`). This file shows that `_sym_read_memory` and `_sym_write_memory` are right
with respect to that: a read is the integer that the bytes of the range encode, and a write
together with the concrete store keeps the two memories consistent and can be read back in any
part and in either order.

The reader and the writer meet in `encode` and `imageByte`. All reads are instances of
`eval_symReadMemory`, which takes the value of each byte of the range as given; where the bytes
are those of one written expression it applies under *every* input, so reading back is a statement
about the expressions and not about one run.
-/

namespace Adacc

open ModularRange ByteOrder SmtLib

variable {SymExpr : Type} [Backend SymExpr]

open Backend

/-- Every expression in shadow memory is eight bits wide and evaluates to the byte at its
address. -/
def Consistent (ρ : Input) (mem : UIntPtr → BitVec 8) (pages : ShadowPages SymExpr) : Prop :=
  ∀ a e, shadowAt pages a = some e → eval ρ e = .bv 8 (mem a)

/-! ## Reading -/

/-- The bytes of a non-empty range joined, given what each of them evaluates to. -/
theorem eval_foldl_appendByte {ρ : Input} (bytes : ℕ → SymExpr) {f : ℕ → BitVec 8} {n : ℕ}
    (littleEndian : Bool) (hbytes : ∀ i ≤ n, eval ρ (bytes i) = .bv 8 (f i)) :
    ∃ e, (List.range (n + 1)).foldl (fun result i ↦ appendByte littleEndian result (bytes i)) none
        = some e ∧ eval ρ e = .ofNat (8 * (n + 1)) (encode littleEndian f (n + 1)) := by
  induction n with
  | zero =>
    refine ⟨bytes 0, rfl, ?_⟩
    rw [hbytes 0 (Nat.le_refl 0), Value.bv_eq_ofNat]
    cases littleEndian <;> simp [encode]
  | succ n ih =>
    obtain ⟨e, hfold, he⟩ := ih fun i hi ↦ hbytes i (Nat.le_succ_of_le hi)
    have hlast := hbytes (n + 1) (Nat.le_refl _)
    rw [Value.bv_eq_ofNat] at hlast
    rw [List.range_succ, List.foldl_append, hfold]
    -- the byte at the highest address comes last: at the low end in big-endian order, at the high
    -- end in little-endian order
    cases littleEndian
    · refine ⟨_, rfl, ?_⟩
      rw [if_neg Bool.false_ne_true, eval_concat_ofNat (f (n + 1)).isLt he hlast, encode_big_succ]
      rfl
    · refine ⟨_, rfl, ?_⟩
      have hlow : encode true f (n + 1) < 2 ^ (8 * (n + 1)) := by
        rw [pow_mul]
        exact encode_lt true f (n + 1)
      rw [if_pos rfl, eval_concat_ofNat hlow hlast he, encode_little_succ, pow_mul,
        show 8 + 8 * (n + 1) = 8 * (n + 1 + 1) by ring]
      rfl

/-- A read that is not null evaluates to the integer that the bytes of the range encode, whatever
these bytes evaluate to. -/
theorem eval_symReadMemory {ρ : Input} {mem : UIntPtr → BitVec 8} {pages : ShadowPages SymExpr}
    {addr : UIntPtr} {length : SizeT} {littleEndian : Bool} {f : ℕ → BitVec 8} {e : SymExpr}
    (hlen : 0 < length.toNat)
    (hbytes : ∀ i < length.toNat,
      eval ρ (byteExpr mem pages (addr + BitVec.ofNat 64 i)) = .bv 8 (f i))
    (hread : symReadMemory mem pages addr length littleEndian = some e) :
    eval ρ e = .ofNat (8 * length.toNat) (encode littleEndian f length.toNat) := by
  obtain ⟨n, hn⟩ := Nat.exists_eq_succ_of_ne_zero hlen.ne'
  rw [hn] at hbytes ⊢
  obtain ⟨e', hfold, he'⟩ := eval_foldl_appendByte (n := n) (f := f)
    (fun i ↦ byteExpr mem pages (addr + BitVec.ofNat 64 i)) littleEndian
    fun i hi ↦ hbytes i (Nat.lt_succ_of_le hi)
  rw [symReadMemory_eq, hn] at hread
  split at hread
  · cases hread
  · rw [hfold, Option.some.injEq] at hread
    exact hread ▸ he'

theorem symReadMemory_eq_none_iff {mem : UIntPtr → BitVec 8} {pages : ShadowPages SymExpr}
    {addr : UIntPtr} {length : SizeT} {littleEndian : Bool} :
    symReadMemory mem pages addr length littleEndian = none ↔
      isConcrete pages addr length = true := by
  rw [← isNone_symReadMemory mem pages addr length littleEndian, Option.isNone_iff_eq_none]

/-- The constant for a byte of memory without expression. -/
theorem eval_constantByte (ρ : Input) (b : BitVec 8) :
    eval ρ (symBuildInteger (b.setWidth 64) 8 : SymExpr) = .bv 8 b := by
  rw [eval_integer ρ _ 8 (by decide)]
  have hb : (b.setWidth 64).setWidth (8 : UInt8).toNat = b := by
    rw [BitVec.setWidth_setWidth_of_le _ (by decide)]
    exact BitVec.setWidth_eq b
  exact congrArg _ hb

theorem Consistent.eval_byteExpr {ρ : Input} {mem : UIntPtr → BitVec 8}
    {pages : ShadowPages SymExpr} (h : Consistent ρ mem pages) (a : UIntPtr) :
    eval ρ (byteExpr mem pages a) = .bv 8 (mem a) := by
  rw [byteExpr]
  rcases hs : shadowAt pages a with - | e
  · exact eval_constantByte ρ (mem a)
  · exact h a e hs

/-- The entries of a range are expressions of eight bits, as `ReadShadowIterator` asserts. -/
def RepresentsBytes (pages : ShadowPages SymExpr) (addr : UIntPtr) (n : ℕ) : Prop :=
  ∀ i < n, ∀ e, shadowAt pages (addr + BitVec.ofNat 64 i) = some e → HasBits e 8

/-- Under every input, the bytes of such a range have values. -/
theorem RepresentsBytes.exists_bytes {pages : ShadowPages SymExpr} {addr : UIntPtr} {n : ℕ}
    (h : RepresentsBytes pages addr n) (ρ : Input) (mem : UIntPtr → BitVec 8) :
    ∃ f : ℕ → BitVec 8, ∀ i < n,
      eval ρ (byteExpr mem pages (addr + BitVec.ofNat 64 i)) = .bv 8 (f i) := by
  have hbyte : ∀ i < n, ∃ b : BitVec 8,
      eval ρ (byteExpr mem pages (addr + BitVec.ofNat 64 i)) = .bv 8 b := by
    intro i hi
    rw [byteExpr]
    rcases hs : shadowAt pages (addr + BitVec.ofNat 64 i) with - | e
    · exact ⟨_, eval_constantByte ρ _⟩
    · exact Value.exists_bv_of_sort ((sort_eval ρ e).trans (h i hi e hs))
  choose! f hf using hbyte
  exact ⟨f, hf⟩

/-- A read of `n` bytes that is not null is `8 * n` bits wide. -/
theorem hasBits_symReadMemory {mem : UIntPtr → BitVec 8} {pages : ShadowPages SymExpr}
    {addr : UIntPtr} {length : SizeT} {littleEndian : Bool} {e : SymExpr}
    (hlen : 0 < length.toNat) (h : RepresentsBytes pages addr length.toNat)
    (hread : symReadMemory mem pages addr length littleEndian = some e) :
    HasBits e (8 * length.toNat) := by
  obtain ⟨f, hf⟩ := h.exists_bytes (fun _ ↦ 0) mem
  exact HasBits.of_eval (eval_symReadMemory hlen hf hread)

/-- The order does not decide whether a read is null. -/
theorem exists_symReadMemory_order {mem : UIntPtr → BitVec 8} {pages : ShadowPages SymExpr}
    {addr : UIntPtr} {length : SizeT} {littleEndian : Bool} {e : SymExpr}
    (hread : symReadMemory mem pages addr length littleEndian = some e) (order : Bool) :
    ∃ e', symReadMemory mem pages addr length order = some e' := by
  rw [← Option.ne_none_iff_exists', Ne, symReadMemory_eq_none_iff]
  intro hconcrete
  rw [symReadMemory_eq_none_iff.mpr hconcrete] at hread
  cases hread

/-- What `_sym_read_memory` should do: the result is null exactly when no byte of the range has an
expression, and otherwise evaluates to the integer that the range encodes. -/
def ReadsValue (ρ : Input) (mem : UIntPtr → BitVec 8) (pages : ShadowPages SymExpr)
    (addr : UIntPtr) (length : SizeT) (littleEndian : Bool) : Prop :=
  (symReadMemory mem pages addr length littleEndian = none ↔
      ∀ i < length.toNat, shadowAt pages (addr + BitVec.ofNat 64 i) = none) ∧
    ∀ e, symReadMemory mem pages addr length littleEndian = some e →
      HasBits e (8 * length.toNat) ∧
        eval ρ e = .ofNat (8 * length.toNat)
          (encode littleEndian (fun i ↦ mem (addr + BitVec.ofNat 64 i)) length.toNat)

/-- In a consistent state, reads are right exactly when the fast path of `isConcrete` is sound. -/
theorem Consistent.readsValue_iff {ρ : Input} {mem : UIntPtr → BitVec 8}
    {pages : ShadowPages SymExpr} (h : Consistent ρ mem pages) {addr : UIntPtr} {length : SizeT}
    (hlen : 0 < length.toNat) (littleEndian : Bool) :
    ReadsValue ρ mem pages addr length littleEndian ↔ FastPathSound pages addr length := by
  rw [ReadsValue, symReadMemory_eq_none_iff, isConcrete_iff_iff]
  refine and_iff_left fun e hread ↦ ?_
  have he := eval_symReadMemory hlen (fun i _ ↦ h.eval_byteExpr (addr + BitVec.ofNat 64 i)) hread
  exact ⟨HasBits.of_eval he, he⟩

/-! ## Writing -/

/-- The bit positions that `_sym_write_memory` computes, in little-endian order. -/
theorem littleEndian_bits {n : ℕ} (hn : 8 * n < 2 ^ 64) {i : ℕ} (hi : i < n) :
    (8 * (BitVec.ofNat 64 i + 1) - 1 : SizeT).toNat = 8 * i + 7 ∧
      (8 * BitVec.ofNat 64 i : SizeT).toNat = 8 * i := by
  simp only [BitVec.toNat_sub, BitVec.toNat_mul, BitVec.toNat_add, BitVec.toNat_ofNat,
    BitVec.ofNat_eq_ofNat]
  omega

/-- The bit positions that `_sym_write_memory` computes, in big-endian order. -/
theorem bigEndian_bits {length : SizeT} (hwidth : 8 * length.toNat < 2 ^ 64) {i : ℕ}
    (hi : i < length.toNat) :
    ((length - BitVec.ofNat 64 i) * 8 - 1).toNat = 8 * (length.toNat - 1 - i) + 7 ∧
      ((length - BitVec.ofNat 64 i - 1) * 8).toNat = 8 * (length.toNat - 1 - i) := by
  simp only [BitVec.toNat_sub, BitVec.toNat_mul, BitVec.toNat_ofNat, BitVec.ofNat_eq_ofNat]
  omega

/-- An extraction of eight bits from byte `k` of the value. -/
theorem eval_extract_byte {ρ : Input} {e : SymExpr} {n v k : ℕ} {first last : SizeT}
    (he : eval ρ e = .ofNat (8 * n) v) (hv : v < 2 ^ (8 * n)) (hk : k < n)
    (hbits : first.toNat = 8 * k + 7 ∧ last.toNat = 8 * k) :
    eval ρ (symExtractHelper e first last) = .bv 8 (byteAt v k) := by
  obtain ⟨hfirst, hlast⟩ := hbits
  rw [eval_extract_ofNat he hv (by omega) (by omega), hlast, hfirst, pow_mul,
    show 8 * k + 7 - 8 * k + 1 = 8 by omega]
  rfl

/-- The bytes that `_sym_write_memory` extracts are those of the image of the value. -/
theorem eval_extractByte {ρ : Input} {e : SymExpr} {length : SizeT} {v i : ℕ}
    (hwidth : 8 * length.toNat < 2 ^ 64) (he : eval ρ e = .ofNat (8 * length.toNat) v)
    (hv : v < 2 ^ (8 * length.toNat)) (littleEndian : Bool) (hi : i < length.toNat) :
    eval ρ (extractByte e length littleEndian (BitVec.ofNat 64 i))
      = .bv 8 (imageByte littleEndian length.toNat v i) := by
  cases littleEndian
  · exact eval_extract_byte (k := length.toNat - 1 - i) he hv (by omega)
      (bigEndian_bits hwidth hi)
  · exact eval_extract_byte he hv hi (littleEndian_bits hwidth hi)

/-- The concrete store of an integer. -/
def storeValue (mem : UIntPtr → BitVec 8) (addr : UIntPtr) (length : SizeT) (v : ℕ)
    (littleEndian : Bool) : UIntPtr → BitVec 8 :=
  rangeUpdate mem addr length.toNat (imageByte littleEndian length.toNat v)

section Write

variable {pages : ShadowPages SymExpr} {addr : UIntPtr} {length : SizeT} {e : SymExpr}

/-- Writing an expression never takes the fast path. -/
theorem shadowAt_symWriteMemory_some (pages : ShadowPages SymExpr) (addr : UIntPtr)
    (length : SizeT) (e : SymExpr) (littleEndian : Bool) :
    shadowAt (symWriteMemory addr length (some e) littleEndian pages)
      = rangeUpdate (shadowAt pages) addr length.toNat fun i ↦
          some (extractByte e length littleEndian (BitVec.ofNat 64 i)) := by
  unfold symWriteMemory
  rw [Option.isNone_some, Bool.false_and, if_neg Bool.false_ne_true]
  exact shadowAt_assignShadow _ addr length pages

theorem shadowAt_written (littleEndian : Bool) {i : ℕ} (hi : i < length.toNat) :
    shadowAt (symWriteMemory addr length (some e) littleEndian pages) (addr + BitVec.ofNat 64 i)
      = some (extractByte e length littleEndian (BitVec.ofNat 64 i)) := by
  rw [shadowAt_symWriteMemory_some]
  exact rangeUpdate_add_ofNat _ _ _ hi (hi.trans length.isLt)

/-- A write and the concrete store of the same value keep the memories consistent. -/
theorem Consistent.write {ρ : Input} {mem : UIntPtr → BitVec 8} (h : Consistent ρ mem pages)
    {v : ℕ} (hwidth : 8 * length.toNat < 2 ^ 64) (he : eval ρ e = .ofNat (8 * length.toNat) v)
    (hv : v < 2 ^ (8 * length.toNat)) (littleEndian : Bool) :
    Consistent ρ (storeValue mem addr length v littleEndian)
      (symWriteMemory addr length (some e) littleEndian pages) := by
  intro a e' ha
  rw [shadowAt_symWriteMemory_some] at ha
  by_cases hlt : (a - addr).toNat < length.toNat
  · rw [rangeUpdate_of_lt hlt, Option.some.injEq] at ha
    rw [storeValue, rangeUpdate_of_lt hlt, ← ha]
    exact eval_extractByte hwidth he hv littleEndian hlt
  · rw [rangeUpdate_of_le (Nat.le_of_not_lt hlt)] at ha
    rw [storeValue, rangeUpdate_of_le (Nat.le_of_not_lt hlt)]
    exact h a e' ha

variable (pages addr e) in
/-- Reading `m` bytes from position `k` of a range that has just been written, in an order of
choice: never null, and the bytes of `e` at these positions under every input. -/
theorem read_written {k m : SizeT} (hm : 0 < m.toNat) (hkm : k.toNat + m.toNat ≤ length.toNat)
    (hwidth : 8 * length.toNat < 2 ^ 64) (mem : UIntPtr → BitVec 8)
    (writeOrder readOrder : Bool) :
    ∃ e', symReadMemory mem (symWriteMemory addr length (some e) writeOrder pages) (addr + k) m
        readOrder = some e' ∧
      ∀ ρ v, eval ρ e = .ofNat (8 * length.toNat) v → v < 2 ^ (8 * length.toNat) →
        eval ρ e' = .ofNat (8 * m.toNat) (encode readOrder
          (fun i ↦ imageByte writeOrder length.toNat v (k.toNat + i)) m.toNat) := by
  -- position `i` of the part is position `k + i` of the range
  have haddr : ∀ i, addr + k + BitVec.ofNat 64 i = addr + BitVec.ofNat 64 (k.toNat + i) := by
    intro i
    rw [← add_ofNat_add, BitVec.ofNat_toNat, BitVec.setWidth_eq]
  have hshadow : ∀ i < m.toNat,
      shadowAt (symWriteMemory addr length (some e) writeOrder pages) (addr + k + BitVec.ofNat 64 i)
        = some (extractByte e length writeOrder (BitVec.ofNat 64 (k.toNat + i))) := by
    intro i hi
    rw [haddr]
    exact shadowAt_written writeOrder (by omega)
  have hsymbolic := hshadow 0 hm
  rw [add_ofNat_zero] at hsymbolic
  have hread : symReadMemory mem (symWriteMemory addr length (some e) writeOrder pages) (addr + k) m
      readOrder ≠ none := by
    -- the first page of the range has a shadow, so the fast path is not taken
    have hfast :
        FastPathSound (symWriteMemory addr length (some e) writeOrder pages) (addr + k) m := by
      intro _ hnone
      rw [shadowAt_of_lookup_eq_none hnone] at hsymbolic
      cases hsymbolic
    rw [Ne, symReadMemory_eq_none_iff, isConcrete_iff hfast]
    intro hall
    have := hall 0 hm
    rw [add_ofNat_zero, hsymbolic] at this
    cases this
  obtain ⟨e', he'⟩ := Option.ne_none_iff_exists'.mp hread
  refine ⟨e', he', fun ρ v he hv ↦ eval_symReadMemory hm (fun i hi ↦ ?_) he'⟩
  rw [byteExpr, hshadow i hi, Option.getD_some]
  exact eval_extractByte hwidth he hv writeOrder (by omega)

end Write

/-- What `_sym_write_memory` of `e`, with the concrete store of the value of `e`, should do: keep
the memories consistent, and allow any part to be read back in the same order as a slice of `e`,
and the whole in the other order as `e` with its bytes reversed. -/
def StoresValue (ρ : Input) (mem : UIntPtr → BitVec 8) (pages : ShadowPages SymExpr)
    (addr : UIntPtr) (length : SizeT) (e : SymExpr) (littleEndian : Bool) : Prop :=
  ∀ v < 2 ^ (8 * length.toNat), eval ρ e = .ofNat (8 * length.toNat) v →
    let mem' := storeValue mem addr length v littleEndian
    let pages' := symWriteMemory addr length (some e) littleEndian pages
    Consistent ρ mem' pages' ∧
      (∀ k m : SizeT, 0 < m.toNat → k.toNat + m.toNat ≤ length.toNat →
        ∃ e', symReadMemory mem' pages' (addr + k) m littleEndian = some e' ∧
          ∀ ρ' v', v' < 2 ^ (8 * length.toNat) → eval ρ' e = .ofNat (8 * length.toNat) v' →
            eval ρ' e' = .ofNat (8 * m.toNat)
              (slice littleEndian length.toNat k.toNat m.toNat v')) ∧
      ∃ e', symReadMemory mem' pages' addr length (!littleEndian) = some e' ∧
        ∀ ρ' v', v' < 2 ^ (8 * length.toNat) → eval ρ' e = .ofNat (8 * length.toNat) v' →
          eval ρ' e' = .ofNat (8 * length.toNat) (reverseBytes length.toNat v')

theorem Consistent.storesValue {ρ : Input} {mem : UIntPtr → BitVec 8}
    {pages : ShadowPages SymExpr} (h : Consistent ρ mem pages) (addr : UIntPtr) {length : SizeT}
    (hlen : 0 < length.toNat) (hwidth : 8 * length.toNat < 2 ^ 64) (e : SymExpr)
    (littleEndian : Bool) : StoresValue ρ mem pages addr length e littleEndian := by
  intro v hv he mem' pages'
  refine ⟨h.write hwidth he hv littleEndian, fun k m hm hkm ↦ ?_, ?_⟩
  · obtain ⟨e', hread, heval⟩ := read_written pages addr e hm hkm hwidth mem'
      littleEndian littleEndian
    refine ⟨e', hread, fun ρ' v' hv' he' ↦ ?_⟩
    rw [heval ρ' v' he' hv', encode_imageByte_slice v' hkm]
  · obtain ⟨e', hread, heval⟩ := read_written pages addr e (k := 0) hlen (by simp) hwidth
      mem' littleEndian (!littleEndian)
    rw [add_zero] at hread
    refine ⟨e', hread, fun ρ' v' hv' he' ↦ ?_⟩
    rw [heval ρ' v' he' hv', ← encode_not_imageByte littleEndian]
    simp only [BitVec.ofNat_eq_ofNat, BitVec.toNat_ofNat, Nat.zero_mod, Nat.zero_add]

/-- What reading and writing values should do at one range and in one order. The width of an
expression is a `size_t`. -/
def MemoryValues (ρ : Input) (mem : UIntPtr → BitVec 8) (pages : ShadowPages SymExpr)
    (addr : UIntPtr) (length : SizeT) (littleEndian : Bool) : Prop :=
  ReadsValue ρ mem pages addr length littleEndian ∧
    ∀ e, HasBits e (8 * length.toNat) → 8 * length.toNat < 2 ^ 64 →
      StoresValue ρ mem pages addr length e littleEndian

/-- In every consistent state, for every non-empty range and both orders, reading and writing values
is right exactly when `isConcrete` does not take its fast path over an expression. -/
theorem memoryValues_iff {ρ : Input} {mem : UIntPtr → BitVec 8} {pages : ShadowPages SymExpr}
    (h : Consistent ρ mem pages) (addr : UIntPtr) {length : SizeT} (hlen : 0 < length.toNat)
    (littleEndian : Bool) :
    MemoryValues ρ mem pages addr length littleEndian ↔ FastPathSound pages addr length := by
  rw [MemoryValues, h.readsValue_iff hlen]
  exact and_iff_left fun e _ hwidth ↦ h.storesValue addr hlen hwidth e littleEndian

/-- A shadow with one symbolic byte, at the start of the second page. -/
def secondPageShadow : ShadowPages Z3Ast := symMemset 4096 (some (.var 0)) 1 ∅

theorem shadowAt_secondPageShadow :
    shadowAt secondPageShadow = rangeUpdate (fun _ ↦ none) 4096 1 fun _ ↦ some (.var 0) :=
  shadowAt_symMemset _ (FastPathSound.of_lt _ (by decide))

theorem consistent_secondPageShadow : Consistent (fun _ ↦ 0) (fun _ ↦ 0) secondPageShadow := by
  intro a e he
  rw [shadowAt_secondPageShadow] at he
  unfold rangeUpdate at he
  split at he
  · cases he
    rfl
  · cases he

/-- The equivalence at a range that crosses into the page with the symbolic byte. -/
theorem memoryValues_iff_secondPage :
    MemoryValues (fun _ ↦ 0) (fun _ ↦ 0) secondPageShadow 4094 4 true ↔
      FastPathSound secondPageShadow 4094 4 :=
  memoryValues_iff consistent_secondPageShadow 4094 (by decide) true

/-- Reading from address 1 to the top of the address space yields null although a byte of the second
page has an expression. -/
theorem not_memoryValues :
    ¬ ∀ (ρ : Input) (mem : UIntPtr → BitVec 8) (pages : ShadowPages Z3Ast) (addr : UIntPtr)
      (length : SizeT) (littleEndian : Bool), Consistent ρ mem pages → 0 < length.toNat →
        MemoryValues ρ mem pages addr length littleEndian := by
  intro h
  have hread := (h _ _ _ 1 (-1) true consistent_secondPageShadow (by decide)).1
  rw [consistent_secondPageShadow.readsValue_iff (by decide)] at hread
  have hnull := hread (by decide) (by decide) 4095 (by decide)
  rw [shadowAt_secondPageShadow,
    show (1 : UIntPtr) + BitVec.ofNat 64 4095 = 4096 by decide] at hnull
  simp [rangeUpdate] at hnull

end Adacc
