import Adacc.Runtime.MemoryValues

/-!
# Bytes of expressions

`_sym_build_extract` cuts a part out of an expression of whole bytes, where byte 0 is the most
significant one, and joins the bytes of the part in either order. Its loop is `encode` again: the
result grows by one byte per turn, at the high end. `_sym_build_bswap` is the special case of all
bytes in little-endian order.

The bit positions are computed in `size_t`, so the width of the expression has to be one.
-/

namespace Adacc

open ModularRange ByteOrder SmtLib

variable {SymExpr : Type} [Backend SymExpr]

open Backend

/-- `r` is made of extractions from `e` whose bit positions are below the width `w`. -/
inductive ExtractedFrom (e : SymExpr) (w : ℕ) : SymExpr → Prop
  | extract {firstBit lastBit : SizeT} (hle : lastBit.toNat ≤ firstBit.toNat)
      (hlt : firstBit.toNat < w) : ExtractedFrom e w (symExtractHelper e firstBit lastBit)
  | concat {a b : SymExpr} (ha : ExtractedFrom e w a) (hb : ExtractedFrom e w b) :
      ExtractedFrom e w (symConcatHelper a b)

theorem symBitsHelper_eq {e : SymExpr} {w : ℕ} (he : HasBits e w) :
    symBitsHelper e = BitVec.ofNat 64 w := by
  rw [symBitsHelper, he]

/-- The positions of the bytes that the loop extracts, in an expression of `n` bytes. -/
theorem byte_bits {n : ℕ} (hn : 8 * n < 2 ^ 64) {offset : BitVec 64} {i : ℕ}
    (hi : offset.toNat + i < n) :
    (BitVec.ofNat 64 (8 * n) - (offset + BitVec.ofNat 64 i) * 8 - 1).toNat
        = 8 * (n - 1 - (offset.toNat + i)) + 7 ∧
      (BitVec.ofNat 64 (8 * n) - (offset + BitVec.ofNat 64 i + 1) * 8).toNat
        = 8 * (n - 1 - (offset.toNat + i)) := by
  simp only [BitVec.toNat_sub, BitVec.toNat_mul, BitVec.toNat_add, BitVec.toNat_ofNat,
    BitVec.ofNat_eq_ofNat]
  omega

/-- The first extraction has a formula of its own. -/
theorem first_bits {n : ℕ} (hn : 8 * n < 2 ^ 64) {offset : BitVec 64} (hoffset : offset.toNat < n) :
    (BitVec.ofNat 64 (8 * n) - offset * 8 - 1).toNat = 8 * (n - 1 - offset.toNat) + 7 ∧
      (BitVec.ofNat 64 (8 * n) - offset * 8 - 8).toNat = 8 * (n - 1 - offset.toNat) := by
  simp only [BitVec.toNat_sub, BitVec.toNat_mul, BitVec.toNat_ofNat, BitVec.ofNat_eq_ofNat]
  omega

/-- The positions of the part that is extracted as a whole. -/
theorem part_bits {n : ℕ} (hn : 8 * n < 2 ^ 64) {offset length : BitVec 64}
    (hlength : 0 < length.toNat) (hpart : offset.toNat + length.toNat ≤ n) :
    (BitVec.ofNat 64 (8 * n) - offset * 8 - 1).toNat
        = 8 * (n - offset.toNat - length.toNat) + (8 * length.toNat - 1) ∧
      (BitVec.ofNat 64 (8 * n) - (offset + length) * 8).toNat
        = 8 * (n - offset.toNat - length.toNat) := by
  simp only [BitVec.toNat_sub, BitVec.toNat_mul, BitVec.toNat_add, BitVec.toNat_ofNat,
    BitVec.ofNat_eq_ofNat]
  omega

/-- What `_sym_build_extract` should do with an expression of `n` bytes: stay inside of it, and
yield the integer that the bytes of the part encode. -/
def ExtractsBytes (e : SymExpr) (n : ℕ) (offset length : BitVec 64) (littleEndian : Bool) : Prop :=
  HasBits (symBuildExtract e offset length littleEndian) (8 * length.toNat) ∧
    ExtractedFrom e (8 * n) (symBuildExtract e offset length littleEndian) ∧
    ∀ ρ v, v < 2 ^ (8 * n) → eval ρ e = .ofNat (8 * n) v →
      eval ρ (symBuildExtract e offset length littleEndian)
        = .ofNat (8 * length.toNat)
          (encode littleEndian (fun i ↦ imageByte false n v (offset.toNat + i)) length.toNat)

/-- The integer that an expression of `n` bytes evaluates to. -/
theorem exists_eval_of_hasBits {e : SymExpr} {w : ℕ} (he : HasBits e w) (ρ : Input) :
    ∃ v < 2 ^ w, eval ρ e = .ofNat w v := by
  obtain ⟨x, hx⟩ := Value.exists_bv_of_sort ((sort_eval ρ e).trans he)
  exact ⟨x.toNat, x.isLt, hx.trans (Value.bv_eq_ofNat w x)⟩

section Extract

variable {e : SymExpr} {n : ℕ} {offset : BitVec 64}

/-- The loop after `k` turns. -/
theorem extractLoop_spec (he : HasBits e (8 * n)) (hn : 8 * n < 2 ^ 64) (k : ℕ)
    (hk : offset.toNat + k < n) :
    let r := (List.range k).foldl
      (fun result i ↦
        symConcatHelper
          (symExtractHelper e
            (symBitsHelper e - (offset + BitVec.ofNat 64 (i + 1)) * 8 - 1)
            (symBitsHelper e - (offset + BitVec.ofNat 64 (i + 1) + 1) * 8))
          result)
      (symExtractHelper e (symBitsHelper e - offset * 8 - 1) (symBitsHelper e - offset * 8 - 8))
    ExtractedFrom e (8 * n) r ∧ ∀ ρ v, v < 2 ^ (8 * n) → eval ρ e = .ofNat (8 * n) v →
      eval ρ r = .ofNat (8 * (k + 1))
        (encode true (fun i ↦ imageByte false n v (offset.toNat + i)) (k + 1)) := by
  rw [symBitsHelper_eq he]
  induction k with
  | zero =>
    obtain ⟨hfirst, hlast⟩ := first_bits hn hk
    refine ⟨.extract (by omega) (by omega), fun ρ v hv hval ↦ ?_⟩
    rw [List.range_zero, List.foldl_nil, eval_extract_byte hval hv (by omega) ⟨hfirst, hlast⟩,
      Value.bv_eq_ofNat]
    simp [encode, imageByte]
  | succ k ih =>
    obtain ⟨hmade, hval⟩ := ih (by omega)
    obtain ⟨hfirst, hlast⟩ := byte_bits hn hk
    rw [List.range_succ, List.foldl_append, List.foldl_cons, List.foldl_nil]
    refine ⟨.concat (.extract (by omega) (by omega)) hmade, fun ρ v hv he' ↦ ?_⟩
    have hbyte := eval_extract_byte he' hv (by omega) ⟨hfirst, hlast⟩
    rw [Value.bv_eq_ofNat] at hbyte
    have hlow : encode true (fun i ↦ imageByte false n v (offset.toNat + i)) (k + 1)
        < 2 ^ (8 * (k + 1)) := by
      rw [pow_mul]
      exact encode_lt true _ (k + 1)
    rw [eval_concat_ofNat hlow hbyte (hval ρ v hv he'), encode_little_succ, pow_mul,
      show 8 + 8 * (k + 1) = 8 * (k + 1 + 1) by ring]
    rfl

theorem extractsBytes (he : HasBits e (8 * n)) (hn : 8 * n < 2 ^ 64) {length : BitVec 64}
    (hlength : 0 < length.toNat) (hpart : offset.toNat + length.toNat ≤ n) (littleEndian : Bool) :
    ExtractsBytes e n offset length littleEndian := by
  have hspec : ExtractedFrom e (8 * n) (symBuildExtract e offset length littleEndian) ∧
      ∀ ρ v, v < 2 ^ (8 * n) → eval ρ e = .ofNat (8 * n) v →
        eval ρ (symBuildExtract e offset length littleEndian)
          = .ofNat (8 * length.toNat)
            (encode littleEndian (fun i ↦ imageByte false n v (offset.toNat + i))
              length.toNat) := by
    cases littleEndian
    · obtain ⟨hfirst, hlast⟩ := part_bits hn hlength hpart
      rw [symBuildExtract, if_neg Bool.false_ne_true, symBitsHelper_eq he]
      refine ⟨.extract (by omega) (by omega), fun ρ v hv hval ↦ ?_⟩
      have hpow : ∀ k, 2 ^ (8 * k) = 256 ^ k := fun k ↦ pow_mul 2 8 k
      have hwidth : 8 * (n - offset.toNat - length.toNat) + (8 * length.toNat - 1)
          - 8 * (n - offset.toNat - length.toNat) + 1 = 8 * length.toNat := by omega
      rw [eval_extract_ofNat hval hv (by omega) (by omega), hfirst, hlast, hwidth,
        encode_imageByte_slice v hpart, slice, if_neg Bool.false_ne_true, hpow, ← hpow length.toNat,
        Value.ofNat_mod]
    · have hbound : offset.toNat + (length.toNat - 1) < n := by omega
      have hloop := extractLoop_spec he hn (length.toNat - 1) hbound
      rw [Nat.sub_add_cancel hlength] at hloop
      rw [symBuildExtract, if_pos rfl]
      exact hloop
  obtain ⟨v, hv, hval⟩ := exists_eval_of_hasBits he fun _ ↦ 0
  exact ⟨HasBits.of_eval (hspec.2 _ v hv hval), hspec⟩

/-! ## Swapping bytes -/

private theorem symBuildBswap_eq (he : HasBits e (8 * n)) (hn : 8 * n < 2 ^ 64) :
    symBuildBswap e = symBuildExtract e 0 (BitVec.ofNat 64 n) true := by
  have hbytes : BitVec.ofNat 64 (8 * n) / 8 = BitVec.ofNat 64 n := by
    apply BitVec.eq_of_toNat_eq
    rw [BitVec.toNat_udiv, BitVec.toNat_ofNat, BitVec.toNat_ofNat, Nat.mod_eq_of_lt hn,
      Nat.mod_eq_of_lt (by omega)]
    exact Nat.mul_div_cancel_left n (by norm_num)
  rw [symBuildBswap, symBitsHelper_eq he, hbytes]

theorem eval_symBuildBswap (he : HasBits e (8 * n)) (hpos : 0 < n) (hn : 8 * n < 2 ^ 64)
    {ρ : Input} {v : ℕ} (hv : v < 2 ^ (8 * n)) (hval : eval ρ e = .ofNat (8 * n) v) :
    eval ρ (symBuildBswap e) = .ofNat (8 * n) (reverseBytes n v) := by
  have hlength : (BitVec.ofNat 64 n).toNat = n := by
    rw [BitVec.toNat_ofNat, Nat.mod_eq_of_lt (by omega)]
  have hzero : (0 : BitVec 64).toNat = 0 := rfl
  have hpart : (0 : BitVec 64).toNat + (BitVec.ofNat 64 n).toNat ≤ n := by
    rw [hlength, hzero, Nat.zero_add]
  obtain ⟨-, -, heval⟩ := extractsBytes he hn (hlength.symm ▸ hpos) hpart true
  rw [symBuildBswap_eq he hn, heval ρ v hv hval, hlength, ← encode_not_imageByte false]
  simp only [hzero, Nat.zero_add, Bool.not_false]

/-- What `_sym_build_bswap` should do with an expression of `n` bytes: reverse them, be its own
inverse, and turn what has been read from memory into the same bytes read in the other order. -/
def SwapsBytes (e : SymExpr) (n : ℕ) : Prop :=
  HasBits (symBuildBswap e) (8 * n) ∧
    (∀ ρ v, v < 2 ^ (8 * n) → eval ρ e = .ofNat (8 * n) v →
      eval ρ (symBuildBswap e) = .ofNat (8 * n) (reverseBytes n v)) ∧
    (∀ ρ, eval ρ (symBuildBswap (symBuildBswap e)) = eval ρ e) ∧
    ∀ (mem : UIntPtr → BitVec 8) (pages : ShadowPages SymExpr) (addr : UIntPtr) (length : SizeT)
      (littleEndian : Bool), length.toNat = n → RepresentsBytes pages addr n →
      symReadMemory mem pages addr length littleEndian = some e →
      ∃ e', symReadMemory mem pages addr length (!littleEndian) = some e' ∧
        ∀ ρ, eval ρ e' = eval ρ (symBuildBswap e)

private theorem swapsBytes (he : HasBits e (8 * n)) (hpos : 0 < n) (hn : 8 * n < 2 ^ 64) :
    SwapsBytes e n := by
  have hbits : HasBits (symBuildBswap e) (8 * n) := by
    obtain ⟨v, hv, hval⟩ := exists_eval_of_hasBits he fun _ ↦ 0
    exact HasBits.of_eval (eval_symBuildBswap he hpos hn hv hval)
  refine ⟨hbits, fun ρ v hv hval ↦ eval_symBuildBswap he hpos hn hv hval, fun ρ ↦ ?_, ?_⟩
  · obtain ⟨v, hv, hval⟩ := exists_eval_of_hasBits he ρ
    have hpow : 2 ^ (8 * n) = 256 ^ n := pow_mul 2 8 n
    have hswap := eval_symBuildBswap he hpos hn hv hval
    rw [eval_symBuildBswap hbits hpos hn (hpow ▸ reverseBytes_lt n v) hswap,
      reverseBytes_reverseBytes (hpow ▸ hv), hval]
  · rintro mem pages addr length littleEndian rfl hbytes hread
    obtain ⟨e', hread'⟩ := exists_symReadMemory_order hread (!littleEndian)
    refine ⟨e', hread', fun ρ ↦ ?_⟩
    obtain ⟨f, hf⟩ := hbytes.exists_bytes ρ mem
    have hlt : encode littleEndian f length.toNat < 2 ^ (8 * length.toNat) := by
      rw [pow_mul]
      exact encode_lt littleEndian f length.toNat
    rw [eval_symReadMemory hpos hf hread',
      eval_symBuildBswap he hpos hn hlt (eval_symReadMemory hpos hf hread), reverseBytes_encode]

end Extract

/-- Extraction and byte swap are right for every expression of whole bytes. -/
theorem extractsBytes_and_swapsBytes (e : SymExpr) (n : ℕ) (hpos : 0 < n) (hn : 8 * n < 2 ^ 64)
    (he : HasBits e (8 * n)) :
    (∀ (offset length : BitVec 64) (littleEndian : Bool), 0 < length.toNat →
        offset.toNat + length.toNat ≤ n → ExtractsBytes e n offset length littleEndian) ∧
      (Even n → SwapsBytes e n) :=
  ⟨fun _ _ littleEndian hlength hpart ↦ extractsBytes he hn hlength hpart littleEndian,
    fun _ ↦ swapsBytes he hpos hn⟩

/-- Two input bytes. -/
def twoBytes : Z3Ast := Z3Ast.symConcatHelper (.var 0) (.var 1)

theorem extractsBytes_and_swapsBytes_twoBytes :
    (∀ (offset length : BitVec 64) (littleEndian : Bool), 0 < length.toNat →
        offset.toNat + length.toNat ≤ 2 → ExtractsBytes twoBytes 2 offset length littleEndian) ∧
      (Even 2 → SwapsBytes twoBytes 2) :=
  extractsBytes_and_swapsBytes twoBytes 2 (by decide) (by decide) rfl

end Adacc
