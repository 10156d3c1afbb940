import Mathlib.Data.BitVec
import Mathlib.Logic.Function.Basic

/-!
# Ranges of a circular address space

A machine address is a bit vector, so the addresses `base, base + 1, …` live on a circle. This
file fixes the two things every copy and fill loop over such an address space needs: the function
obtained by overwriting the `n` entries that start at `base`, and how that function grows when the
range grows by one entry at its upper or at its lower end.

Membership in a range is stated as `(a - base).toNat < n`. The subtraction is modular, so a range
may wrap around the top of the address space and nothing below has to exclude that case.
-/

namespace ModularRange

variable {w : ℕ} {α : Type*}

/-- `m` with the `n` entries from `base` upwards replaced by `f 0, f 1, …`. -/
def rangeUpdate (m : BitVec w → α) (base : BitVec w) (n : ℕ) (f : ℕ → α) : BitVec w → α :=
  fun a ↦ if (a - base).toNat < n then f (a - base).toNat else m a

/-! ## Positions in a range -/

theorem toNat_add_ofNat_sub (base : BitVec w) {i : ℕ} (h : i < 2 ^ w) :
    (base + BitVec.ofNat w i - base).toNat = i := by
  rw [BitVec.add_comm, BitVec.add_sub_cancel, BitVec.toNat_ofNat, Nat.mod_eq_of_lt h]

theorem add_toNat_sub (base a : BitVec w) : base + BitVec.ofNat w (a - base).toNat = a := by
  rw [BitVec.ofNat_toNat, BitVec.setWidth_eq, BitVec.add_comm, BitVec.sub_add_cancel]

theorem add_ofNat_add (base : BitVec w) (i j : ℕ) :
    base + BitVec.ofNat w i + BitVec.ofNat w j = base + BitVec.ofNat w (i + j) := by
  rw [BitVec.add_assoc, ← BitVec.ofNat_add]

@[simp] theorem add_ofNat_zero (base : BitVec w) : base + BitVec.ofNat w 0 = base :=
  BitVec.add_zero base

theorem add_ofNat_succ (base : BitVec w) (i : ℕ) :
    base + 1 + BitVec.ofNat w i = base + BitVec.ofNat w (i + 1) := by
  rw [Nat.add_comm i 1]
  exact add_ofNat_add base 1 i

/-- What holds at the first positions holds at the first one and at those after it. -/
theorem forall_lt_succ_add_ofNat (P : BitVec w → Prop) {base : BitVec w} {n : ℕ} :
    (∀ i < n + 1, P (base + BitVec.ofNat w i)) ↔
      P base ∧ ∀ i < n, P (base + 1 + BitVec.ofNat w i) := by
  rw [Nat.forall_lt_succ_left', add_ofNat_zero]
  simp only [add_ofNat_succ]

/-- Distinct positions below the size of the address space are distinct addresses. -/
theorem add_ofNat_injective {base : BitVec w} {i j : ℕ} (hi : i < 2 ^ w) (hj : j < 2 ^ w)
    (h : base + BitVec.ofNat w i = base + BitVec.ofNat w j) : i = j := by
  rw [← toNat_add_ofNat_sub base hi, h, toNat_add_ofNat_sub base hj]

theorem ne_add_ofNat {a : BitVec w} {n : ℕ} (h0 : 0 < n) (hn : n < 2 ^ w) :
    a ≠ a + BitVec.ofNat w n := by
  intro h
  have := add_ofNat_injective (Nat.two_pow_pos w) hn ((add_ofNat_zero a).trans h)
  omega

/-- The address at position `i` from `base`, seen from a later base, wraps around. -/
theorem toNat_sub_succ {base a : BitVec w} (h : a ≠ base) :
    (a - (base + 1)).toNat = (a - base).toNat - 1 := by
  have hne : (a - base).toNat ≠ 0 := by
    intro h0
    apply h
    rw [← add_toNat_sub base a, h0, BitVec.add_zero]
  have hlt : (a - base).toNat < 2 ^ w := (a - base).isLt
  have hshift : a - (base + 1) = a - base - 1 := (sub_sub a base 1).symm
  have hw : 1 < 2 ^ w := by omega
  rw [hshift, BitVec.toNat_sub, BitVec.ofNat_eq_ofNat, BitVec.toNat_ofNat, Nat.mod_eq_of_lt hw,
    show 2 ^ w - 1 + (a - base).toNat = ((a - base).toNat - 1) + 2 ^ w from by omega,
    Nat.add_mod_right, Nat.mod_eq_of_lt (by omega)]

/-! ## Reading an updated function -/

theorem rangeUpdate_of_lt {m : BitVec w → α} {base a : BitVec w} {n : ℕ} {f : ℕ → α}
    (h : (a - base).toNat < n) : rangeUpdate m base n f a = f (a - base).toNat := by
  rw [rangeUpdate, if_pos h]

theorem rangeUpdate_of_le {m : BitVec w → α} {base a : BitVec w} {n : ℕ} {f : ℕ → α}
    (h : n ≤ (a - base).toNat) : rangeUpdate m base n f a = m a := by
  rw [rangeUpdate, if_neg (Nat.not_lt.mpr h)]

/-- Position `i` of the range holds `f i`. -/
theorem rangeUpdate_add_ofNat (m : BitVec w → α) (base : BitVec w) {n i : ℕ} (f : ℕ → α)
    (hi : i < n) (hw : i < 2 ^ w) : rangeUpdate m base n f (base + BitVec.ofNat w i) = f i := by
  rw [rangeUpdate, toNat_add_ofNat_sub base hw, if_pos hi]

@[simp] theorem rangeUpdate_zero (m : BitVec w → α) (base : BitVec w) (f : ℕ → α) :
    rangeUpdate m base 0 f = m := by
  funext a
  exact rangeUpdate_of_le (Nat.zero_le _)

theorem rangeUpdate_congr {m : BitVec w → α} {base : BitVec w} {n : ℕ} {f g : ℕ → α}
    (h : ∀ i < n, f i = g i) : rangeUpdate m base n f = rangeUpdate m base n g := by
  funext a
  unfold rangeUpdate
  split
  · next hlt => exact h _ hlt
  · rfl

/-- A range that does not overlap itself shows what it has been filled with. -/
theorem rangeUpdate_eq_iff {m : BitVec w → α} {base : BitVec w} {n : ℕ} (hn : n ≤ 2 ^ w)
    {f g : ℕ → α} : rangeUpdate m base n f = rangeUpdate m base n g ↔ ∀ i < n, f i = g i := by
  refine ⟨fun h i hi ↦ ?_, fun h ↦ rangeUpdate_congr h⟩
  rw [← rangeUpdate_add_ofNat m base f hi (hi.trans_le hn), h,
    rangeUpdate_add_ofNat m base g hi (hi.trans_le hn)]

/-- A case distinction in which the whole range is on one side. -/
theorem rangeUpdate_ite_lt (m : BitVec w → α) (base : BitVec w) (n : ℕ) (f g : ℕ → α) :
    rangeUpdate m base n (fun i ↦ if i < n then f i else g i) = rangeUpdate m base n f :=
  rangeUpdate_congr fun _ hi ↦ if_pos hi

/-- A bound for a part of the range need not be cut off at its end. -/
theorem rangeUpdate_ite_lt_min (m : BitVec w → α) (base : BitVec w) (n k : ℕ) (f g : ℕ → α) :
    rangeUpdate m base n (fun i ↦ if i < min n k then f i else g i)
      = rangeUpdate m base n fun i ↦ if i < k then f i else g i :=
  rangeUpdate_congr fun _ hi ↦ if_congr (by rw [lt_min_iff, and_iff_right hi]) rfl rfl

/-- Overwriting a range with what it already holds changes nothing. -/
theorem rangeUpdate_self {m : BitVec w → α} {base : BitVec w} {n : ℕ} {f : ℕ → α}
    (h : ∀ i < n, f i = m (base + BitVec.ofNat w i)) : rangeUpdate m base n f = m := by
  funext a
  unfold rangeUpdate
  split
  · next hlt => rw [h _ hlt, add_toNat_sub]
  · rfl

/-- Two ranges, one right after the other. -/
theorem rangeUpdate_append (m : BitVec w → α) (base : BitVec w) {k n : ℕ} (f g : ℕ → α)
    (hkn : k ≤ n) (hn : n < 2 ^ w) :
    rangeUpdate (rangeUpdate m base k f) (base + BitVec.ofNat w k) (n - k) g
      = rangeUpdate m base n fun i ↦ if i < k then f i else g (i - k) := by
  funext a
  have ha : (a - (base + BitVec.ofNat w k)).toNat
      = if k ≤ (a - base).toNat then (a - base).toNat - k else (a - base).toNat + 2 ^ w - k := by
    have hlt : (a - base).toNat < 2 ^ w := (a - base).isLt
    rw [← BitVec.sub_sub, BitVec.toNat_sub, BitVec.toNat_ofNat,
      Nat.mod_eq_of_lt (show k < 2 ^ w by omega)]
    split
    · rw [show 2 ^ w - k + (a - base).toNat = (a - base).toNat - k + 2 ^ w by omega,
        Nat.add_mod_right, Nat.mod_eq_of_lt (by omega)]
    · rw [Nat.mod_eq_of_lt (by omega)]
      omega
  have hlt : (a - base).toNat < 2 ^ w := (a - base).isLt
  unfold rangeUpdate
  rw [ha]
  dsimp only
  by_cases hk : k ≤ (a - base).toNat
  · rw [if_pos hk, if_neg (Nat.not_lt.mpr hk), if_neg (Nat.not_lt.mpr hk)]
    exact if_congr (by omega) rfl rfl
  · rw [if_neg hk, if_neg (show ¬ (a - base).toNat + 2 ^ w - k < n - k by omega),
      if_pos (Nat.lt_of_not_le hk), if_pos (show (a - base).toNat < n by omega),
      if_pos (Nat.lt_of_not_le hk)]

/-- An entry outside the range may be written before or after the range is. -/
theorem rangeUpdate_update_comm (m : BitVec w → α) {base a : BitVec w} {n : ℕ} (f : ℕ → α) (v : α)
    (h : n ≤ (a - base).toNat) :
    rangeUpdate (Function.update m a v) base n f
      = Function.update (rangeUpdate m base n f) a v := by
  funext b
  by_cases hb : b = a
  · subst hb
    rw [Function.update_self, rangeUpdate_of_le h, Function.update_self]
  · rw [Function.update_of_ne hb, rangeUpdate, rangeUpdate, Function.update_of_ne hb]

/-! ## Growing a range by one entry -/

/-- The range grows at its upper end: what a loop that walks upwards does in one step. -/
theorem rangeUpdate_succ (m : BitVec w → α) (base : BitVec w) {n : ℕ} (f : ℕ → α)
    (hn : n < 2 ^ w) :
    rangeUpdate m base (n + 1) f
      = Function.update (rangeUpdate m base n f) (base + BitVec.ofNat w n) (f n) := by
  funext a
  by_cases ha : a = base + BitVec.ofNat w n
  · subst ha
    rw [Function.update_self, rangeUpdate_add_ofNat m base f (Nat.lt_succ_self n) hn]
  · rw [Function.update_of_ne ha]
    have hne : (a - base).toNat ≠ n := by
      intro h
      exact ha (by rw [← h, add_toNat_sub])
    by_cases hlt : (a - base).toNat < n
    · rw [rangeUpdate_of_lt hlt, rangeUpdate_of_lt (Nat.lt_succ_of_lt hlt)]
    · rw [rangeUpdate_of_le (Nat.le_of_not_lt hlt), rangeUpdate_of_le (by omega)]

/-- The range grows at its lower end: what a loop that walks downwards does in one step. -/
theorem rangeUpdate_succ' (m : BitVec w → α) (base : BitVec w) (n : ℕ) (f : ℕ → α) :
    rangeUpdate m base (n + 1) f
      = Function.update (rangeUpdate m (base + 1) n fun i ↦ f (i + 1)) base (f 0) := by
  funext a
  by_cases ha : a = base
  · subst ha
    rw [Function.update_self, rangeUpdate, BitVec.sub_self, BitVec.toNat_ofNat, Nat.zero_mod,
      if_pos (Nat.succ_pos n)]
  · rw [Function.update_of_ne ha, rangeUpdate, rangeUpdate, toNat_sub_succ ha]
    have hpos : (a - base).toNat ≠ 0 := by
      intro h0
      apply ha
      rw [← add_toNat_sub base a, h0, BitVec.add_zero]
    by_cases hlt : (a - base).toNat < n + 1
    · rw [if_pos hlt, if_pos (by omega), show (a - base).toNat - 1 + 1 = (a - base).toNat by omega]
    · rw [if_neg hlt, if_neg (by omega)]

/-- A loop that walks upwards: write the lowest entry, then the rest. -/
theorem rangeUpdate_update_first (m : BitVec w → α) (base : BitVec w) {n : ℕ} (f : ℕ → α)
    (hn : n < 2 ^ w) :
    rangeUpdate (Function.update m base (f 0)) (base + 1) n (fun i ↦ f (i + 1))
      = rangeUpdate m base (n + 1) f := by
  have hones : base - (base + 1) = BitVec.allOnes w := by
    rw [sub_add_cancel_left, ← BitVec.neg_one_eq_allOnes]
    rfl
  have hend : n ≤ (base - (base + 1)).toNat := by
    rw [hones, BitVec.toNat_allOnes]
    omega
  rw [rangeUpdate_succ', rangeUpdate_update_comm _ _ _ hend]

/-- A loop that walks downwards: write the highest entry, then the rest. -/
theorem rangeUpdate_update_last (m : BitVec w → α) (base : BitVec w) {n : ℕ} (f : ℕ → α)
    (hn : n < 2 ^ w) :
    rangeUpdate (Function.update m (base + BitVec.ofNat w n) (f n)) base n f
      = rangeUpdate m base (n + 1) f := by
  rw [rangeUpdate_succ m base f hn, rangeUpdate_update_comm]
  rw [toNat_add_ofNat_sub base hn]

end ModularRange
