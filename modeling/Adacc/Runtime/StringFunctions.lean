import Adacc.Runtime.LibcWrappers

/-!
# Library functions on memory

What the functions behind the wrappers do to memory and answer: `memcpy`, `memmove` and `strncpy`
copy, `strchr` and `memcmp` scan. The functions that scan a string end with the address space at the
latest, so that they are total; a string is an object, and its NUL is inside.
-/

namespace Adacc

open ModularRange

/-! ## Strings -/

theorem strlenLoop_eq_iff (mem : UIntPtr → BitVec 8) {n k : ℕ} (hk : k < n) (str : UIntPtr) :
    strlenLoop mem n str = k ↔
      mem (str + BitVec.ofNat 64 k) = 0 ∧ ∀ i < k, mem (str + BitVec.ofNat 64 i) ≠ 0 := by
  induction n generalizing k str with
  | zero => exact absurd hk (Nat.not_lt_zero k)
  | succ n ih =>
    rw [strlenLoop]
    by_cases hnul : mem str = 0
    · rw [if_pos hnul]
      cases k with
      | zero => simpa using hnul
      | succ k =>
        refine iff_of_false (Nat.zero_ne_add_one k) fun h ↦ ?_
        exact ((forall_lt_succ_add_ofNat (mem · ≠ 0)).mp h.2).1 hnul
    · rw [if_neg hnul]
      cases k with
      | zero => simpa using hnul
      | succ k =>
        rw [Nat.add_right_cancel_iff, ih (Nat.lt_of_succ_lt_succ hk),
          forall_lt_succ_add_ofNat (mem · ≠ 0), and_iff_right hnul, add_ofNat_succ]

theorem toNat_strlen (mem : UIntPtr → BitVec 8) (str : UIntPtr) :
    (strlen mem str).toNat = strlenLoop mem (2 ^ 64 - 1) str := by
  have := strlenLoop_le mem (2 ^ 64 - 1) str
  rw [strlen, BitVec.toNat_ofNat, Nat.mod_eq_of_lt (by omega)]

/-- The bytes that are counted are not NUL. -/
theorem ne_zero_of_lt_strlenLoop {mem : UIntPtr → BitVec 8} {n i : ℕ} {str : UIntPtr}
    (hi : i < strlenLoop mem n str) : mem (str + BitVec.ofNat 64 i) ≠ 0 := by
  induction n generalizing i str with
  | zero => exact absurd hi (Nat.not_lt_zero i)
  | succ n ih =>
    rw [strlenLoop] at hi
    split at hi
    · exact absurd hi (Nat.not_lt_zero i)
    · next hnul =>
      cases i with
      | zero => rwa [add_ofNat_zero]
      | succ i =>
        rw [← add_ofNat_succ]
        exact ih (Nat.lt_of_succ_lt_succ hi)

/-- The bytes that are counted are those before the first NUL. -/
theorem lt_strlenLoop_iff {mem : UIntPtr → BitVec 8} {n i : ℕ} (hi : i < n) {str : UIntPtr} :
    i < strlenLoop mem n str ↔ ∀ j ≤ i, mem (str + BitVec.ofNat 64 j) ≠ 0 := by
  constructor
  · intro h j hj
    exact ne_zero_of_lt_strlenLoop (hj.trans_lt h)
  · intro h
    by_contra hle
    rw [Nat.not_lt] at hle
    exact h _ hle ((strlenLoop_eq_iff mem (hle.trans_lt hi) str).mp rfl).1

/-- What `strnlen` looks at decides it. -/
theorem strlenLoop_congr {mem mem' : UIntPtr → BitVec 8} {n : ℕ} {str : UIntPtr}
    (h : ∀ i < n, i ≤ strlenLoop mem n str →
      mem' (str + BitVec.ofNat 64 i) = mem (str + BitVec.ofNat 64 i)) :
    strlenLoop mem' n str = strlenLoop mem n str := by
  induction n generalizing str with
  | zero => rfl
  | succ n ih =>
    have hfirst := h 0 (Nat.succ_pos n) (Nat.zero_le _)
    rw [add_ofNat_zero] at hfirst
    rw [strlenLoop, hfirst, strlenLoop]
    split
    · rfl
    · next hnul =>
      rw [ih]
      intro i hi hle
      rw [add_ofNat_succ]
      refine h (i + 1) (Nat.succ_lt_succ hi) ?_
      rw [strlenLoop, if_neg hnul]
      exact Nat.succ_le_succ hle

/-! ## Copying -/

/-- `memcpy`, for ranges that do not overlap, and `memmove`. -/
def libcMemmove (dest src : UIntPtr) (n : SizeT) (mem : UIntPtr → BitVec 8) :
    UIntPtr → BitVec 8 :=
  rangeUpdate mem dest n.toNat fun i ↦ mem (src + BitVec.ofNat 64 i)

/-- `strncpy`: the bytes before the NUL, and NUL for the rest. -/
def libcStrncpy (dest src : UIntPtr) (n : SizeT) (mem : UIntPtr → BitVec 8) :
    UIntPtr → BitVec 8 :=
  rangeUpdate mem dest n.toNat fun i ↦
    if i < strlenLoop mem n.toNat src then mem (src + BitVec.ofNat 64 i) else 0

/-! ## Scanning -/

/-- The loop of `strchr`, for so many bytes. -/
def strchrLoop (mem : UIntPtr → BitVec 8) (c : BitVec 8) : ℕ → UIntPtr → Option UIntPtr
  | 0, _ => none
  | n + 1, str =>
    if mem str = c then some str
    else if mem str = 0 then none
    else strchrLoop mem c n (str + 1)

/-- `strchr`, which converts its second parameter to a `char`. -/
def libcStrchr (mem : UIntPtr → BitVec 8) (str : UIntPtr) (c : BitVec 32) : Option UIntPtr :=
  strchrLoop mem (c.setWidth 8) (2 ^ 64 - 1) str

/-- The loop of `memcmp`, with the sign of the result. -/
def memcmpLoop (mem : UIntPtr → BitVec 8) : ℕ → UIntPtr → UIntPtr → Ordering
  | 0, _, _ => .eq
  | n + 1, a, b =>
    match compare (mem a).toNat (mem b).toNat with
    | .eq => memcmpLoop mem n (a + 1) (b + 1)
    | order => order

/-- `memcmp` -/
def libcMemcmp (mem : UIntPtr → BitVec 8) (a b : UIntPtr) (n : SizeT) : Ordering :=
  memcmpLoop mem n.toNat a b

theorem strchrLoop_eq_some_iff {mem : UIntPtr → BitVec 8} {c : BitVec 8} {n : ℕ}
    {str a : UIntPtr} :
    strchrLoop mem c n str = some a ↔
      ∃ k < n, a = str + BitVec.ofNat 64 k ∧ mem a = c ∧
        ∀ i < k, mem (str + BitVec.ofNat 64 i) ≠ c ∧ mem (str + BitVec.ofNat 64 i) ≠ 0 := by
  induction n generalizing str with
  | zero => simp [strchrLoop]
  | succ n ih =>
    rw [strchrLoop]
    constructor
    · intro h
      split at h
      · next hc =>
        obtain rfl := Option.some.inj h
        exact ⟨0, Nat.succ_pos n, (add_ofNat_zero str).symm, hc, fun i hi ↦ absurd hi (by omega)⟩
      · next hc =>
        split at h
        · cases h
        · next hnul =>
          obtain ⟨k, hk, rfl, ha, hbefore⟩ := ih.mp h
          refine ⟨k + 1, Nat.succ_lt_succ hk, add_ofNat_succ str k, ha, ?_⟩
          exact (forall_lt_succ_add_ofNat fun a ↦ mem a ≠ c ∧ mem a ≠ 0).mpr ⟨⟨hc, hnul⟩, hbefore⟩
    · rintro ⟨k, hk, rfl, ha, hbefore⟩
      cases k with
      | zero =>
        rw [add_ofNat_zero] at ha ⊢
        rw [if_pos ha]
      | succ k =>
        obtain ⟨⟨hc, hnul⟩, hbefore⟩ :=
          (forall_lt_succ_add_ofNat fun a ↦ mem a ≠ c ∧ mem a ≠ 0).mp hbefore
        rw [if_neg hc, if_neg hnul]
        exact ih.mpr ⟨k, Nat.lt_of_succ_lt_succ hk, (add_ofNat_succ str k).symm, ha, hbefore⟩

theorem strchrLoop_eq_none_iff {mem : UIntPtr → BitVec 8} {c : BitVec 8} {n : ℕ} {str : UIntPtr} :
    strchrLoop mem c n str = none ↔
      ∀ k < n, (∀ i < k, mem (str + BitVec.ofNat 64 i) ≠ 0) →
        mem (str + BitVec.ofNat 64 k) ≠ c := by
  induction n generalizing str with
  | zero => simp [strchrLoop]
  | succ n ih =>
    rw [strchrLoop, Nat.forall_lt_succ_left', add_ofNat_zero]
    by_cases hc : mem str = c
    · simp [hc]
    · rw [if_neg hc]
      by_cases hnul : mem str = 0
      · rw [if_pos hnul]
        refine iff_of_true rfl ⟨fun _ ↦ hc, fun k hk hbefore ↦ ?_⟩
        exact absurd hnul ((forall_lt_succ_add_ofNat (mem · ≠ 0)).mp hbefore).1
      · have hbefore (k : ℕ) : (∀ i < k + 1, mem (str + BitVec.ofNat 64 i) ≠ 0) ↔
            ∀ i < k, mem (str + 1 + BitVec.ofNat 64 i) ≠ 0 :=
          (forall_lt_succ_add_ofNat (mem · ≠ 0)).trans (and_iff_right hnul)
        rw [if_neg hnul, ih, and_iff_right fun _ ↦ hc]
        simp only [hbefore, add_ofNat_succ]

/-- `memcmp` is zero exactly if all bytes are equal. -/
theorem memcmpLoop_eq_iff {mem : UIntPtr → BitVec 8} {n : ℕ} {a b : UIntPtr} :
    memcmpLoop mem n a b = .eq ↔
      ∀ i < n, mem (a + BitVec.ofNat 64 i) = mem (b + BitVec.ofNat 64 i) := by
  induction n generalizing a b with
  | zero => simp [memcmpLoop]
  | succ n ih =>
    rw [memcmpLoop, Nat.forall_lt_succ_left', add_ofNat_zero, add_ofNat_zero]
    have hfirst : compare (mem a).toNat (mem b).toNat = .eq ↔ mem a = mem b := by
      rw [Nat.compare_eq_eq, BitVec.toNat_inj]
    split
    · next heq =>
      rw [ih, and_iff_right (hfirst.mp heq)]
      simp only [add_ofNat_succ]
    · next hne =>
      exact iff_of_false hne fun h ↦ hne (hfirst.mpr h.1)

/-- Otherwise the first bytes that differ decide. -/
theorem exists_of_memcmpLoop_ne {mem : UIntPtr → BitVec 8} {n : ℕ} {a b : UIntPtr}
    (h : memcmpLoop mem n a b ≠ .eq) :
    ∃ i < n, (∀ j < i, mem (a + BitVec.ofNat 64 j) = mem (b + BitVec.ofNat 64 j)) ∧
      compare (mem (a + BitVec.ofNat 64 i)).toNat (mem (b + BitVec.ofNat 64 i)).toNat
        = memcmpLoop mem n a b := by
  induction n generalizing a b with
  | zero => exact absurd rfl h
  | succ n ih =>
    rw [memcmpLoop] at h ⊢
    split
    · next heq =>
      rw [heq] at h
      obtain ⟨i, hi, hbefore, hat⟩ := ih h
      refine ⟨i + 1, Nat.succ_lt_succ hi, ?_, ?_⟩
      · rw [Nat.forall_lt_succ_left', add_ofNat_zero, add_ofNat_zero]
        simp only [← add_ofNat_succ]
        exact ⟨BitVec.eq_of_toNat_eq (Nat.compare_eq_eq.mp heq), hbefore⟩
      · rw [← add_ofNat_succ, ← add_ofNat_succ, hat]
    · next hne =>
      refine ⟨0, Nat.succ_pos n, fun j hj ↦ absurd hj (Nat.not_lt_zero j), ?_⟩
      rw [add_ofNat_zero, add_ofNat_zero]

theorem libcMemcmp_eq_iff {mem : UIntPtr → BitVec 8} {a b : UIntPtr} {n : SizeT} :
    libcMemcmp mem a b n = .eq ↔
      ∀ i < n.toNat, mem (a + BitVec.ofNat 64 i) = mem (b + BitVec.ofNat 64 i) := by
  rw [libcMemcmp, memcmpLoop_eq_iff]

end Adacc
