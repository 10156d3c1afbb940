import Mathlib.Data.BitVec
import Mathlib.Data.Nat.ModEq
import Mathlib.Algebra.Order.Ring.Nat
import Mathlib.Tactic.NormNum
import Mathlib.Tactic.Ring

/-!
# Byte orders

A range of memory is read as a function `f : ℕ → BitVec 8`, position `i` being the byte at the
range's start plus `i`. `encode littleEndian f n` is the integer that the first `n` positions
encode, `imageByte littleEndian n v` is the byte that position `i` of an `n`-byte image of `v`
holds.

Both are written in the shape the loops of a byte-wise store have: `encode` adds one byte at a
time from the lowest address upwards, so the two orders differ only in the side on which the new
byte is attached. A slice of an image is again an image (`imageByte_add`), which is what turns
every statement about a sub-range into the round trip `encode_imageByte`.
-/

namespace ByteOrder

/-! ## The integer encoded by a range -/

/-- The integer that the bytes `f 0, …, f (n - 1)`, in the order of their addresses, encode. -/
def encode (littleEndian : Bool) (f : ℕ → BitVec 8) : ℕ → ℕ
  | 0 => 0
  | n + 1 =>
    if littleEndian then (f n).toNat * 256 ^ n + encode littleEndian f n
    else encode littleEndian f n * 256 + (f n).toNat

theorem encode_little_succ (f : ℕ → BitVec 8) (n : ℕ) :
    encode true f (n + 1) = (f n).toNat * 256 ^ n + encode true f n := rfl

theorem encode_big_succ (f : ℕ → BitVec 8) (n : ℕ) :
    encode false f (n + 1) = encode false f n * 256 + (f n).toNat := rfl

theorem encode_congr {littleEndian : Bool} {f g : ℕ → BitVec 8} {n : ℕ}
    (h : ∀ i < n, f i = g i) : encode littleEndian f n = encode littleEndian g n := by
  induction n with
  | zero => rfl
  | succ n ih =>
    rw [encode, encode, ih fun i hi ↦ h i (Nat.lt_succ_of_lt hi), h n (Nat.lt_succ_self n)]

theorem encode_lt (littleEndian : Bool) (f : ℕ → BitVec 8) (n : ℕ) :
    encode littleEndian f n < 256 ^ n := by
  induction n with
  | zero => exact Nat.one_pos
  | succ n ih =>
    have hbyte : (f n).toNat < 256 := (f n).isLt
    rw [encode, pow_succ]
    split
    · calc (f n).toNat * 256 ^ n + encode littleEndian f n
          < (f n).toNat * 256 ^ n + 256 ^ n := Nat.add_lt_add_left ih _
        _ = ((f n).toNat + 1) * 256 ^ n := by ring
        _ ≤ 256 * 256 ^ n := Nat.mul_le_mul_right _ hbyte
        _ = 256 ^ n * 256 := Nat.mul_comm _ _
    · omega

/-- The byte at the lowest address, split off. -/
theorem encode_succ' (littleEndian : Bool) (f : ℕ → BitVec 8) (n : ℕ) :
    encode littleEndian f (n + 1)
      = if littleEndian then encode littleEndian (fun i ↦ f (i + 1)) n * 256 + (f 0).toNat
        else (f 0).toNat * 256 ^ n + encode littleEndian (fun i ↦ f (i + 1)) n := by
  induction n with
  | zero => cases littleEndian <;> simp [encode]
  | succ n ih =>
    cases littleEndian
    · rw [encode_big_succ, ih, if_neg Bool.false_ne_true, if_neg Bool.false_ne_true,
        encode_big_succ]
      ring
    · rw [encode_little_succ, ih, if_pos rfl, if_pos rfl, encode_little_succ]
      ring

/-- Reading in the other order is reading the positions backwards. -/
theorem encode_not (littleEndian : Bool) (f : ℕ → BitVec 8) (n : ℕ) :
    encode (!littleEndian) f n = encode littleEndian (fun i ↦ f (n - 1 - i)) n := by
  induction n generalizing f with
  | zero => rfl
  | succ n ih =>
    have hshift : encode littleEndian (fun i ↦ f (n + 1 - 1 - (i + 1))) n
        = encode littleEndian (fun i ↦ f (n - 1 - i)) n :=
      encode_congr fun i _ ↦ by rw [show n + 1 - 1 - (i + 1) = n - 1 - i from by omega]
    rw [encode_succ' littleEndian, hshift, ← ih]
    cases littleEndian <;> rfl

/-! ## The image of an integer -/

/-- The byte of `v` with weight `256 ^ i`. -/
def byteAt (v i : ℕ) : BitVec 8 := BitVec.ofNat 8 (v / 256 ^ i)

@[simp] theorem toNat_byteAt (v i : ℕ) : (byteAt v i).toNat = v / 256 ^ i % 256 := by
  rw [byteAt, BitVec.toNat_ofNat]

/-- Position `i` of the `n`-byte image of `v`. -/
def imageByte (littleEndian : Bool) (n v i : ℕ) : BitVec 8 :=
  byteAt v (if littleEndian then i else n - 1 - i)

/-- The part of an `n`-byte integer that the positions `k, …, k + m - 1` of its image show. -/
def slice (littleEndian : Bool) (n k m v : ℕ) : ℕ :=
  v / 256 ^ (if littleEndian then k else n - k - m) % 256 ^ m

/-- A slice of an image is the image of the slice. -/
theorem imageByte_add (littleEndian : Bool) {n k m : ℕ} (v : ℕ) {i : ℕ} (hkm : k + m ≤ n)
    (hi : i < m) :
    imageByte littleEndian n v (k + i)
      = imageByte littleEndian m (v / 256 ^ (if littleEndian then k else n - k - m)) i := by
  unfold imageByte byteAt
  cases littleEndian
  · simp only [Bool.false_eq_true, if_false]
    rw [Nat.div_div_eq_div_mul, ← pow_add, show n - 1 - (k + i) = n - k - m + (m - 1 - i) by omega]
  · simp only [if_true]
    rw [Nat.div_div_eq_div_mul, ← pow_add]

/-- The round trip: an image encodes the integer it was made from. -/
theorem encode_imageByte (littleEndian : Bool) (n v : ℕ) :
    encode littleEndian (imageByte littleEndian n v) n = v % 256 ^ n := by
  induction n generalizing v with
  | zero => rw [encode, pow_zero, Nat.mod_one]
  | succ n ih =>
    cases littleEndian
    · have hhigh : encode false (imageByte false (n + 1) v) n = v / 256 % 256 ^ n := by
        rw [← ih (v / 256)]
        refine encode_congr fun i hi ↦ ?_
        have h := imageByte_add false v (k := 0) (m := n) (n := n + 1) (by omega) hi
        rwa [Nat.zero_add, if_neg Bool.false_ne_true, show n + 1 - 0 - n = 1 from by omega,
          pow_one] at h
      rw [encode_big_succ, hhigh, imageByte, if_neg Bool.false_ne_true, toNat_byteAt,
        show n + 1 - 1 - n = 0 from by omega, pow_zero, Nat.div_one, pow_succ', Nat.mod_mul]
      ring
    · have hlow : encode true (imageByte true (n + 1) v) n = v % 256 ^ n := by
        rw [← ih v]
        exact encode_congr fun i _ ↦ rfl
      rw [encode_little_succ, hlow, imageByte, if_pos rfl, toNat_byteAt, Nat.mod_pow_succ]
      ring

/-- Reading the positions `k, …, k + m - 1` of an image yields that slice of the integer. -/
theorem encode_imageByte_slice {littleEndian : Bool} {n k m : ℕ} (v : ℕ) (hkm : k + m ≤ n) :
    encode littleEndian (fun i ↦ imageByte littleEndian n v (k + i)) m
      = slice littleEndian n k m v := by
  rw [slice, ← encode_imageByte]
  exact encode_congr fun i hi ↦ imageByte_add littleEndian v hkm hi

/-! ## Reversing the bytes of an integer -/

/-- The `n`-byte integer whose byte of weight `256 ^ i` is the byte of `v` of weight
`256 ^ (n - 1 - i)`. -/
def reverseBytes (n v : ℕ) : ℕ := encode true (fun i ↦ byteAt v (n - 1 - i)) n

/-- Reading a whole image in the other order reverses the bytes of the integer. -/
theorem encode_not_imageByte (littleEndian : Bool) (n v : ℕ) :
    encode (!littleEndian) (imageByte littleEndian n v) n = reverseBytes n v := by
  cases littleEndian
  · exact encode_congr fun i _ ↦ rfl
  · rw [encode_not]
    exact encode_congr fun i _ ↦ rfl

/-- The byte of weight `256 ^ i` is the one at position `i` in little-endian order. -/
theorem byteAt_encode {f : ℕ → BitVec 8} {n i : ℕ} (hi : i < n) :
    byteAt (encode true f n) i = f i := by
  apply BitVec.eq_of_toNat_eq
  rw [toNat_byteAt]
  induction n with
  | zero => exact absurd hi (Nat.not_lt_zero i)
  | succ n ih =>
    have hpos : 0 < 256 ^ i := Nat.pow_pos (by norm_num)
    rw [encode_little_succ]
    rcases Nat.lt_succ_iff_lt_or_eq.mp hi with hlt | rfl
    · -- the byte at position `n` does not reach down to position `i`
      obtain ⟨k, rfl⟩ : ∃ k, n = i + 1 + k := ⟨n - (i + 1), by omega⟩
      have hhigh : (f (i + 1 + k)).toNat * 256 ^ (i + 1 + k)
          = 256 ^ i * (256 * ((f (i + 1 + k)).toNat * 256 ^ k)) := by ring
      rw [← ih hlt, hhigh, Nat.mul_add_div hpos, Nat.mul_add_mod]
    · rw [Nat.mul_comm, Nat.mul_add_div hpos, Nat.div_eq_of_lt (encode_lt true f i),
        Nat.add_zero, Nat.mod_eq_of_lt (f i).isLt]

/-- The other round trip: the image of an encoded integer has the bytes that it was made from. -/
theorem imageByte_encode (littleEndian : Bool) (f : ℕ → BitVec 8) {n i : ℕ} (hi : i < n) :
    imageByte littleEndian n (encode littleEndian f n) i = f i := by
  cases littleEndian
  · rw [show encode false f n = encode (!true) f n from rfl, encode_not, imageByte,
      if_neg Bool.false_ne_true, byteAt_encode (by omega), show n - 1 - (n - 1 - i) = i by omega]
  · exact byteAt_encode hi

/-- Reversing the bytes of an encoded integer is reading it in the other order. -/
theorem reverseBytes_encode (littleEndian : Bool) (f : ℕ → BitVec 8) (n : ℕ) :
    reverseBytes n (encode littleEndian f n) = encode (!littleEndian) f n := by
  have hlittle : ∀ f : ℕ → BitVec 8, reverseBytes n (encode true f n) = encode false f n := by
    intro f
    rw [show encode false f n = encode (!true) f n from rfl, encode_not]
    exact encode_congr fun i hi ↦ byteAt_encode (by omega)
  cases littleEndian
  · rw [show encode false f n = encode (!true) f n from rfl, encode_not, hlittle,
      show encode false _ n = encode (!true) _ n from rfl, encode_not]
    refine encode_congr fun i hi ↦ ?_
    rw [show n - 1 - (n - 1 - i) = i by omega]
  · exact hlittle f

theorem reverseBytes_lt (n v : ℕ) : reverseBytes n v < 256 ^ n := encode_lt _ _ _

theorem reverseBytes_reverseBytes {n v : ℕ} (hv : v < 256 ^ n) :
    reverseBytes n (reverseBytes n v) = v := by
  have himage : encode false (imageByte false n v) n = v := by
    rw [encode_imageByte, Nat.mod_eq_of_lt hv]
  calc reverseBytes n (reverseBytes n v)
      = reverseBytes n (encode true (imageByte false n v) n) := rfl
    _ = encode false (imageByte false n v) n := reverseBytes_encode true _ n
    _ = v := himage

end ByteOrder
